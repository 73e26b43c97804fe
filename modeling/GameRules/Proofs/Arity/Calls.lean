/-
Tables over whole rows of calls, also of calls that fail. Every call records some readings one after
another and does nothing else, so entries are only ever added at the end and names stay unique. A
sentence that is refused leaves no trace; functions that are refused leave those before the refused
one. What a call has recorded with success is what every later table says.
-/
import GameRules.Proofs.Arity.Uniform
import GameRules.Proofs.First
import Mathlib.Data.List.Induction

namespace GameRules

namespace ArityTable

/-! ## Entries that readings add -/

/-- The readings of names that a table does not list yet, each once, in the order of reading. -/
def unlisted (t : ArityTable) (rs : List Reading) : List (String × Int) :=
  ((rs.filter (·.1 ∉ t.names)).map fun r => (r.1, (r.2 : Int))).eraseDups

section Unlisted

variable {t : ArityTable} {rs : List Reading} {r : Reading}

/-- A name that the table lists already adds nothing. -/
theorem unlisted_snoc_listed (h : r.1 ∈ t.names) : t.unlisted (rs ++ [r]) = t.unlisted rs := by
  simp [unlisted, h]

/-- Any other reading adds its own entry, unless an earlier one has done so. -/
theorem unlisted_snoc (h : r.1 ∉ t.names) :
    t.unlisted (rs ++ [r]) =
      if (r.1, (r.2 : Int)) ∈ t.unlisted rs then t.unlisted rs
      else t.unlisted rs ++ [(r.1, (r.2 : Int))] := by
  have hone : [r].filter (·.1 ∉ t.names) = [r] := by simp [h]
  unfold unlisted
  rw [List.filter_append, hone, List.map_append, List.map_singleton, eraseDups_snoc]
  simp only [List.mem_eraseDups]

end Unlisted

section Prefix

variable {t t' : ArityTable} {name : String} {k : Int}

theorem mem_entries_of_arity? (h : t.arity? name = some k) : (name, k) ∈ t.entries := by
  obtain ⟨l, l', he, -⟩ := List.lookup_eq_some_iff.1 h
  simp [he]

/-- What a table says is said by every longer one too. -/
theorem arity?_of_prefix (hp : t.entries <+: t'.entries) (h : t.arity? name = some k) :
    t'.arity? name = some k := by
  obtain ⟨l, hl⟩ := hp
  unfold arity? at h ⊢
  rw [← hl, List.lookup_append, h]
  rfl

end Prefix

section RecordAll

variable {t t' : ArityTable} {rs : List Reading}

theorem recordAll_singleton {r : Reading} : t.recordAll [r] = .ok t' ↔ t.record r.1 r.2 = .ok t' := by
  rw [recordAll_cons]
  constructor
  · rintro ⟨t₁, h, h'⟩
    cases h'
    exact h
  · intro h
    exact ⟨t', h, rfl⟩

/-- The entries after some readings are those before and what was not listed yet. -/
theorem recordAll_entries (h : t.recordAll rs = .ok t') : t'.entries = t.entries ++ t.unlisted rs := by
  induction rs using List.reverseRecOn generalizing t' with
  | nil =>
    cases h
    simp [unlisted]
  | append_singleton rs r ih =>
    obtain ⟨t₁, h₁, hlast⟩ := recordAll_append.1 h
    have ih := ih h₁
    have hr := recordAll_singleton.1 hlast
    unfold record at hr
    split at hr
    · -- a name that is new to all before it goes to the end
      rename_i hnone
      cases hr
      have hnew := arity?_eq_none_iff.1 hnone
      rw [names, ih, List.map_append, List.mem_append, not_or] at hnew
      have hunlisted : (r.1, (r.2 : Int)) ∉ t.unlisted rs := fun hm =>
        hnew.2 (List.mem_map.2 ⟨_, hm, rfl⟩)
      rw [unlisted_snoc hnew.1, if_neg hunlisted]
      simp only [ih, List.append_assoc]
    · -- a name that was there, or came with an earlier reading, changes nothing
      rename_i previous hsome
      split at hr
      · rename_i he
        cases hr
        rw [ih]
        by_cases hlisted : r.1 ∈ t.names
        · rw [unlisted_snoc_listed hlisted]
        · have hmem := mem_entries_of_arity? (he ▸ hsome)
          rw [ih, List.mem_append] at hmem
          have hearlier := hmem.resolve_left fun hm => hlisted (List.mem_map.2 ⟨_, hm, rfl⟩)
          rw [unlisted_snoc hlisted, if_pos hearlier]
      · cases hr

theorem recordAll_extends (h : t.recordAll rs = .ok t') : t.entries <+: t'.entries :=
  ⟨_, (recordAll_entries h).symm⟩

theorem recordAll_nodup (hn : t.names.Nodup) (h : t.recordAll rs = .ok t') : t'.names.Nodup := by
  induction rs generalizing t with
  | nil =>
    cases h
    exact hn
  | cons r rs ih =>
    obtain ⟨t₁, h₁, h⟩ := recordAll_cons.1 h
    exact ih (record_nodup hn h₁) h

/-- All that is recorded is found. -/
theorem recordAll_arity? (h : t.recordAll rs = .ok t') {r : Reading} (hr : r ∈ rs) :
    t'.arity? r.1 = some r.2 := by
  induction rs generalizing t with
  | nil => cases hr
  | cons q rs ih =>
    obtain ⟨t₁, h₁, hrest⟩ := recordAll_cons.1 h
    rcases List.mem_cons.1 hr with rfl | hr
    · exact arity?_of_prefix (recordAll_extends hrest) (record_ok h₁).1
    · exact ih hrest hr

end RecordAll

end ArityTable

namespace ArityTables

/-! ## What is asked of calls -/

/-- Functions are recorded up to one that conflicts with what is recorded by then: those before it
are all in the table, nothing else has been added, and the fault tells of the conflict. -/
def StopsAtConflict (t t' : ArityTable) (fs : List Application) (fault : Fault) : Prop :=
  ∃ before f after previous, fs = before ++ f :: after ∧
    t'.entries = t.entries ++ t.unlisted (before.map fun g => (g.name, g.args.length)) ∧
    (∀ g ∈ before, t'.arity? g.name = some (g.args.length : Int)) ∧
    t'.arity? f.name = some previous ∧ previous ≠ f.args.length ∧
    fault = .functionArity f.name f.args.length previous

/-- The name of a sentence is listed with the arity that the sentence has. -/
def ListsSentence (t : ArityTables) (s : Node) : Prop :=
  ∃ name k, s.name? = some name ∧ s.arity? = some k ∧ t.sentences.arity? name = some (k : Int)

/-- Each function in the arguments of a sentence, at any depth, is listed with its arity. -/
def ListsFunctions (t : ArityTables) (s : Node) : Prop :=
  ∀ f : Application, (∃ a ∈ s.sentenceArgs, Node.TermIn f.toNode a) →
    t.functions.arity? f.name = some (f.args.length : Int)

/-- What a call may do to the tables, whether it fails or not. -/
structure CallLaw (t : ArityTables) (c : Call) (t' : ArityTables) (failure : Option Failure) : Prop where
  /-- No entry is changed, removed or moved. -/
  sentences_grow : t.sentences.entries <+: t'.sentences.entries
  functions_grow : t.functions.entries <+: t'.functions.entries
  /-- A sentence alone leaves the functions as they are, and leaves no trace if it is refused. -/
  sentence : ∀ s, c = .sentence s → t'.functions = t.functions ∧ (failure ≠ none → t' = t)
  /-- Functions alone leave the sentences as they are, and stop at a conflict. -/
  functions : ∀ s, c = .functions s → t'.sentences = t.sentences ∧ ∀ e, failure = some e →
    ∃ fault, e = .fault fault ∧
      StopsAtConflict t.functions t'.functions (Node.functionsIn s.sentenceArgs) fault
  /-- Where both are asked for, the functions are refused only after the sentence is recorded. -/
  both : ∀ s, c = .both s → ∀ e, failure = some e →
    (t' = t ∧ ∀ fault, e = .fault fault → fault.code = "E130") ∨
      ∃ fault, e = .fault fault ∧ fault.code = "E131" ∧ t'.ListsSentence s ∧
        StopsAtConflict t.functions t'.functions (Node.functionsIn s.sentenceArgs) fault

/-! ## How a call ends -/

/-- A conflict among functions: those before it are recorded, and the next one is refused. -/
theorem recordFunctions_stops {t t' : ArityTable} {fs : List Application} {fault : Fault}
    (h : recordFunctions t fs = (t', some fault)) :
    ∃ before f after previous, fs = before ++ f :: after ∧
      t.recordAll (before.map fun g => (g.name, g.args.length)) = .ok t' ∧
      t'.record f.name f.args.length = .error previous ∧
      fault = .functionArity f.name f.args.length previous := by
  induction fs generalizing t with
  | nil => cases h
  | cons f fs ih =>
    unfold recordFunctions at h
    split at h
    · rename_i t₁ h₁
      obtain ⟨before, g, after, previous, rfl, hrec, hg, rfl⟩ := ih h
      exact ⟨f :: before, g, after, previous, rfl, ArityTable.recordAll_cons.2 ⟨t₁, h₁, hrec⟩, hg, rfl⟩
    · rename_i previous hp
      cases h
      exact ⟨[], f, fs, previous, rfl, rfl, hp, rfl⟩

theorem recordFunctions_stopsAtConflict {t t' : ArityTable} {fs : List Application} {fault : Fault}
    (h : recordFunctions t fs = (t', some fault)) : StopsAtConflict t t' fs fault := by
  obtain ⟨before, f, after, previous, hfs, hrec, hf, hfault⟩ := recordFunctions_stops h
  obtain ⟨hp, hne⟩ := ArityTable.record_error hf
  refine ⟨before, f, after, previous, hfs, ArityTable.recordAll_entries hrec, ?_, hp, hne, hfault⟩
  intro g hg
  exact ArityTable.recordAll_arity? hrec (List.mem_map.2 ⟨g, hg, rfl⟩)

section Call

variable {t t' : ArityTables} {s : Node}

theorem addFunctions_records {found : Option Fault} (h : t.addFunctions s = (t', found)) :
    ∃ fs, t.functions.recordAll fs = .ok t'.functions := by
  obtain ⟨-, hrec⟩ := addFunctions_eq h
  cases found with
  | none => exact ⟨_, recordFunctions_ok hrec⟩
  | some fault =>
    obtain ⟨before, f, after, previous, -, hrec, -⟩ := recordFunctions_stops hrec
    exact ⟨_, hrec⟩

theorem addSentence_listsSentence (h : t.addSentence s = .ok t') : t'.ListsSentence s := by
  obtain ⟨⟨name, k⟩, hr, hrec, -⟩ := addSentence_ok h
  obtain ⟨hn, ha⟩ := Node.reading?_eq_some.1 hr
  exact ⟨name, k, hn, ha, (ArityTable.record_ok hrec).1⟩

/-- Functions recorded afterwards do not touch the sentence. -/
theorem ListsSentence.addFunctions {found : Option Fault} (hs : t.ListsSentence s)
    (h : t.addFunctions s = (t', found)) : t'.ListsSentence s := by
  unfold ListsSentence at hs ⊢
  rwa [(addFunctions_eq h).1]

theorem addSentence_code {fault : Fault} (h : t.addSentence s = .error (.fault fault)) :
    fault.code = "E130" := by
  unfold addSentence at h
  split at h
  · cases h
  · cases h
  · split at h
    · cases h
    · cases h
      rfl

end Call

/-- The ways in which a call can end: a sentence with its functions is the sentence alone, and then
its functions if the sentence is recorded. -/
inductive CallEnds (t : ArityTables) : Call → ArityTables → Option Failure → Prop where
  | sentence {s : Node} {t' : ArityTables} : t.addSentence s = .ok t' → CallEnds t (.sentence s) t' none
  | sentenceRefused {s : Node} {e : Failure} : t.addSentence s = .error e →
    CallEnds t (.sentence s) t (some e)
  | functions {s : Node} {t' : ArityTables} {found : Option Fault} :
    t.addFunctions s = (t', found) → CallEnds t (.functions s) t' (found.map .fault)
  | both {s : Node} {t₁ t' : ArityTables} {found : Option Fault} : t.addSentence s = .ok t₁ →
    t₁.addFunctions s = (t', found) → CallEnds t (.both s) t' (found.map .fault)
  | bothRefused {s : Node} {e : Failure} : t.addSentence s = .error e →
    CallEnds t (.both s) t (some e)

theorem call_ends (t : ArityTables) (c : Call) : CallEnds t c (t.call c).1 (t.call c).2 := by
  cases c with
  | sentence s =>
    rw [call]
    cases h : t.addSentence s with
    | ok t' => exact .sentence h
    | error e => exact .sentenceRefused h
  | functions s => exact .functions rfl
  | both s =>
    rw [call, add]
    cases h : t.addSentence s with
    | ok t₁ => exact .both h rfl
    | error e => exact .bothRefused h

section Ends

variable {t t' : ArityTables} {c : Call} {failure : Option Failure}

/-- Every call records some readings in each table, and does nothing else. -/
theorem CallEnds.records (h : CallEnds t c t' failure) :
    ∃ ss fs, t.sentences.recordAll ss = .ok t'.sentences ∧ t.functions.recordAll fs = .ok t'.functions := by
  cases h with
  | sentence h =>
    obtain ⟨r, -, hs, hf⟩ := addSentence_ok h
    exact ⟨[r], [], ArityTable.recordAll_singleton.2 hs, congrArg _ hf.symm⟩
  | functions h =>
    obtain ⟨fs, hf⟩ := addFunctions_records h
    exact ⟨[], fs, congrArg _ (addFunctions_eq h).1.symm, hf⟩
  | both h₁ h₂ =>
    obtain ⟨r, -, hs, hf⟩ := addSentence_ok h₁
    obtain ⟨fs, hfs⟩ := addFunctions_records h₂
    rw [hf] at hfs
    rw [← (addFunctions_eq h₂).1] at hs
    exact ⟨[r], fs, ArityTable.recordAll_singleton.2 hs, hfs⟩
  | sentenceRefused _ => exact ⟨[], [], rfl, rfl⟩
  | bothRefused _ => exact ⟨[], [], rfl, rfl⟩

theorem CallEnds.law (h : CallEnds t c t' failure) : CallLaw t c t' failure := by
  obtain ⟨ss, fs, hs, hf⟩ := h.records
  refine ⟨ArityTable.recordAll_extends hs, ArityTable.recordAll_extends hf, ?_, ?_, ?_⟩
  · rintro s rfl
    cases h with
    | sentence h =>
      obtain ⟨r, -, -, hsame⟩ := addSentence_ok h
      exact ⟨hsame, fun hne => absurd rfl hne⟩
    | sentenceRefused _ => exact ⟨rfl, fun _ => rfl⟩
  · rintro s rfl
    cases h with
    | @functions _ _ found h =>
      obtain ⟨hsame, hrec⟩ := addFunctions_eq h
      refine ⟨hsame, fun e he => ?_⟩
      obtain ⟨fault, rfl, rfl⟩ := Option.map_eq_some_iff.1 he
      exact ⟨fault, rfl, recordFunctions_stopsAtConflict hrec⟩
  · rintro s rfl e he
    cases h with
    | @both _ t₁ _ found h₁ h₂ =>
      obtain ⟨fault, rfl, rfl⟩ := Option.map_eq_some_iff.1 he
      have hlists := (addSentence_listsSentence h₁).addFunctions h₂
      obtain ⟨-, hrec⟩ := addFunctions_eq h₂
      obtain ⟨r, -, -, hf₁⟩ := addSentence_ok h₁
      rw [hf₁] at hrec
      have hstops := recordFunctions_stopsAtConflict hrec
      have hcode : fault.code = "E131" := by
        obtain ⟨_, _, _, _, -, -, -, -, -, rfl⟩ := hstops
        rfl
      exact .inr ⟨fault, rfl, hcode, hlists, hstops⟩
    | bothRefused h =>
      cases he
      refine .inl ⟨rfl, ?_⟩
      rintro fault rfl
      exact addSentence_code h

/-- What is asked for with its functions and not refused is listed. -/
theorem CallEnds.lists {s : Node} (h : CallEnds t (.both s) t' none) :
    t'.ListsSentence s ∧ t'.ListsFunctions s := by
  generalize hf : (none : Option Failure) = failure at h
  cases h with
  | both h₁ h₂ =>
    rw [eq_comm, Option.map_eq_none_iff] at hf
    subst hf
    obtain ⟨-, hrec⟩ := addFunctions_eq h₂
    refine ⟨(addSentence_listsSentence h₁).addFunctions h₂, fun f hfn => ?_⟩
    have hmem := Node.mem_functionsIn.2 hfn
    exact ArityTable.recordAll_arity? (recordFunctions_ok hrec) (List.mem_map.2 ⟨f, hmem, rfl⟩)
  | bothRefused _ => cases hf

end Ends

/-! ## Rows of calls -/

/-- No name stands twice in a table. -/
def UniqueNames (t : ArityTables) : Prop := t.sentences.names.Nodup ∧ t.functions.names.Nodup

theorem UniqueNames.call {t : ArityTables} (h : t.UniqueNames) (c : Call) : (t.call c).1.UniqueNames := by
  obtain ⟨ss, fs, hs, hf⟩ := (call_ends t c).records
  exact ⟨ArityTable.recordAll_nodup h.1 hs, ArityTable.recordAll_nodup h.2 hf⟩

theorem UniqueNames.calls {t : ArityTables} (h : t.UniqueNames) (cs : List Call) :
    (t.calls cs).UniqueNames := by
  induction cs generalizing t with
  | nil => exact h
  | cons c cs ih => exact ih (h.call c)

theorem calls_append (t : ArityTables) (cs cs' : List Call) :
    t.calls (cs ++ cs') = (t.calls cs).calls cs' :=
  List.foldl_append

theorem calls_grow (t : ArityTables) (cs : List Call) :
    t.sentences.entries <+: (t.calls cs).sentences.entries ∧
      t.functions.entries <+: (t.calls cs).functions.entries := by
  induction cs generalizing t with
  | nil => exact ⟨List.prefix_refl _, List.prefix_refl _⟩
  | cons c cs ih =>
    have hlaw := (call_ends t c).law
    obtain ⟨hs, hf⟩ := ih (t.call c).1
    exact ⟨hlaw.sentences_grow.trans hs, hlaw.functions_grow.trans hf⟩

theorem ListsSentence.calls {t : ArityTables} {s : Node} (h : t.ListsSentence s) (cs : List Call) :
    (t.calls cs).ListsSentence s := by
  obtain ⟨name, k, hn, ha, hk⟩ := h
  exact ⟨name, k, hn, ha, ArityTable.arity?_of_prefix (calls_grow t cs).1 hk⟩

theorem ListsFunctions.calls {t : ArityTables} {s : Node} (h : t.ListsFunctions s) (cs : List Call) :
    (t.calls cs).ListsFunctions s :=
  fun f hf => ArityTable.arity?_of_prefix (calls_grow t cs).2 (h f hf)

/-- At every point of a row of calls the names are unique, the next call keeps to its law, and if it
records a sentence with its functions, then all tables after it list them. -/
theorem calls_keep_law (before : List Call) (c : Call) (after : List Call) :
    (empty.calls before).UniqueNames ∧
      CallLaw (empty.calls before) c ((empty.calls before).call c).1 ((empty.calls before).call c).2 ∧
      ∀ s, c = .both s → ((empty.calls before).call c).2 = none →
        (empty.calls (before ++ c :: after)).ListsSentence s ∧
          (empty.calls (before ++ c :: after)).ListsFunctions s := by
  have hends := call_ends (empty.calls before) c
  have hunique : empty.UniqueNames := ⟨List.nodup_nil, List.nodup_nil⟩
  refine ⟨hunique.calls before, hends.law, ?_⟩
  rintro s rfl hnone
  rw [hnone] at hends
  obtain ⟨hs, hf⟩ := hends.lists
  rw [calls_append]
  exact ⟨hs.calls after, hf.calls after⟩

/-- A call that is refused for a function leaves the sentence and the function before it, and what is
recorded later is still listed after another refusal. -/
theorem tables_after_refusals :
    empty.calls [.both (.rel "cell" [.fn "at" [.const "x"]]),
        .both (.rel "mark" [.fn "by" [.const "o"], .fn "at" [.const "x", .const "y"]])] =
      ⟨⟨[("cell", 1), ("mark", 2)]⟩, ⟨[("at", 1), ("by", 1)]⟩⟩ ∧
    (empty.calls ([.both (.rel "cell" [.fn "at" [.const "x"]]),
        .both (.rel "mark" [.fn "by" [.const "o"], .fn "at" [.const "x", .const "y"]])] ++
      .both (.rel "line" [.fn "by" [.fn "row" [.var "?r"]]]) ::
        [.sentence (.prop "line")])).ListsFunctions (.rel "line" [.fn "by" [.fn "row" [.var "?r"]]]) := by
  refine ⟨by decide, ?_⟩
  exact ((calls_keep_law _ _ _).2.2 _ rfl (by decide)).2

end ArityTables

end GameRules
