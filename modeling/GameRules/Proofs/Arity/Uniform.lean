/-
Uniform arities. A table that has read some names with arities holds exactly what it has read, so
it can be read at all only if no name comes with two arities; and a refusal shows a name that does.
The tables of a program therefore exist exactly if its sentence names and its function names have
one arity each, and then they list these names and arities and no others.
-/
import GameRules.Arity.Tables
import GameRules.Proofs.Node.Occurrence
import Mathlib.Logic.Basic

namespace GameRules

/-! ## Tables of readings -/

/-- A name as it was read, with the arity it had there. -/
abbrev Reading := String × Nat

/-- No name is read with two arities. -/
def Uniform (rs : List Reading) : Prop :=
  ∀ name j k, (name, j) ∈ rs → (name, k) ∈ rs → j = k

theorem Uniform.of_subset {rs rs' : List Reading} (h : Uniform rs') (hs : ∀ r ∈ rs, r ∈ rs') :
    Uniform rs :=
  fun name j k hj hk => h name j k (hs _ hj) (hs _ hk)

namespace ArityTable

/-- The entries of a table are what has been read. -/
def Tabulates (t : ArityTable) (rs : List Reading) : Prop :=
  ∀ name j, t.arity? name = some j ↔ ∃ k : Nat, (name, k) ∈ rs ∧ (k : Int) = j

theorem tabulates_empty : Tabulates .empty [] := by
  intro name j
  simp [arity?, empty]

theorem Tabulates.uniform {t : ArityTable} {rs : List Reading} (h : Tabulates t rs) : Uniform rs := by
  intro name j k hj hk
  have hj' := (h name j).2 ⟨j, hj, rfl⟩
  have hk' := (h name k).2 ⟨k, hk, rfl⟩
  rw [hj', Option.some.injEq] at hk'
  exact Int.ofNat.inj hk'

theorem Tabulates.mem_names {t : ArityTable} {rs : List Reading} (h : Tabulates t rs) {name : String} :
    name ∈ t.names ↔ ∃ k, (name, k) ∈ rs := by
  rw [← not_not (a := name ∈ t.names), ← arity?_eq_none_iff, ← ne_eq, Option.ne_none_iff_exists']
  constructor
  · rintro ⟨j, hj⟩
    obtain ⟨k, hk, -⟩ := (h name j).1 hj
    exact ⟨k, hk⟩
  · rintro ⟨k, hk⟩
    exact ⟨k, (h name k).2 ⟨k, hk, rfl⟩⟩

/-- Recording a name adds its arity and leaves the others. -/
theorem record_arity? {t t' : ArityTable} {name : String} {k : Int} (hr : t.record name k = .ok t')
    (n : String) (j : Int) :
    t'.arity? n = some j ↔ t.arity? n = some j ∨ n = name ∧ j = k := by
  unfold record at hr
  split at hr
  · rename_i hn
    cases hr
    -- the new entry stands last, so an older one of the same name would hide it
    have hlast : [(name, k)].lookup n = some j ↔ n = name ∧ j = k := by
      rw [List.lookup_cons]
      by_cases hnn : n = name
      · simp [hnn, eq_comm]
      · have hb : (n == name) = false := by simpa using hnn
        simp [hb, hnn]
    unfold arity? at hn ⊢
    rw [List.lookup_append, Option.or_eq_some_iff, hlast]
    constructor
    · rintro (h | ⟨-, h⟩)
      · exact .inl h
      · exact .inr h
    · rintro (h | ⟨rfl, hj⟩)
      · exact .inl h
      · exact .inr ⟨hn, rfl, hj⟩
  · rename_i previous hp
    split at hr
    · rename_i he
      cases hr
      constructor
      · exact .inl
      · rintro (h | ⟨rfl, rfl⟩)
        · exact h
        · rw [hp, he]
    · cases hr

/-- What is recorded joins what was read before. -/
theorem Tabulates.record {t t' : ArityTable} {rs : List Reading} {name : String} {k : Nat}
    (h : Tabulates t rs) (hr : t.record name k = .ok t') : Tabulates t' (rs ++ [(name, k)]) := by
  intro n j
  rw [record_arity? hr, h]
  simp only [List.mem_append, List.mem_singleton, Prod.mk.injEq]
  constructor
  · rintro (⟨i, hi, hij⟩ | ⟨rfl, rfl⟩)
    · exact ⟨i, .inl hi, hij⟩
    · exact ⟨k, .inr ⟨rfl, rfl⟩, rfl⟩
  · rintro ⟨i, hi | ⟨rfl, rfl⟩, rfl⟩
    · exact .inl ⟨i, hi, rfl⟩
    · exact .inr ⟨rfl, rfl⟩

/-- A refusal shows a name that was read with another arity. -/
theorem Tabulates.not_uniform {t : ArityTable} {rs : List Reading} {name : String} {k : Nat}
    {previous : Int} (h : Tabulates t rs) (hr : t.record name k = .error previous)
    (more : List Reading) : ¬ Uniform (rs ++ (name, k) :: more) := by
  obtain ⟨hp, hne⟩ := record_error hr
  obtain ⟨j, hj, rfl⟩ := (h name previous).1 hp
  intro hu
  exact hne (congrArg _ (hu name j k (by simp [hj]) (by simp)))

/-- Records readings one after another. -/
def recordAll (t : ArityTable) (rs : List Reading) : Except Int ArityTable :=
  rs.foldlM (fun t r => t.record r.1 r.2) t

theorem recordAll_cons {t t' : ArityTable} {r : Reading} {rs : List Reading} :
    t.recordAll (r :: rs) = .ok t' ↔
      ∃ t₁, t.record r.1 r.2 = .ok t₁ ∧ t₁.recordAll rs = .ok t' := by
  unfold recordAll
  rw [List.foldlM_cons]
  cases t.record r.1 r.2 <;> simp [bind, Except.bind]

theorem recordAll_append {t t' : ArityTable} {rs rs' : List Reading} :
    t.recordAll (rs ++ rs') = .ok t' ↔
      ∃ t₁, t.recordAll rs = .ok t₁ ∧ t₁.recordAll rs' = .ok t' := by
  unfold recordAll
  rw [List.foldlM_append]
  cases rs.foldlM (fun t r => t.record r.1 r.2) t <;> simp [bind, Except.bind]

theorem Tabulates.recordAll {t t' : ArityTable} {rs rs' : List Reading} (h : Tabulates t rs)
    (hr : t.recordAll rs' = .ok t') : Tabulates t' (rs ++ rs') := by
  induction rs' generalizing t rs with
  | nil =>
    cases hr
    simpa using h
  | cons r rs' ih =>
    obtain ⟨t₁, h₁, hr⟩ := recordAll_cons.1 hr
    simpa using ih (h.record h₁) hr

end ArityTable

/-! ## Readings of sentences -/

namespace Node

/-- What a sentence tells about its own name. -/
def reading? (s : Node) : Option Reading :=
  match s.name?, s.arity? with
  | some name, some arity => some (name, arity)
  | _, _ => none

theorem reading?_eq_some {s : Node} {name : String} {k : Nat} :
    s.reading? = some (name, k) ↔ s.name? = some name ∧ s.arity? = some k := by
  unfold reading?
  cases s.name? <;> cases s.arity? <;> simp

/-- A sentence proper has a name and an arity. -/
theorem reading?_ne_none {s : Node} (h : s.isSentence = true) : s.reading? ≠ none := by
  cases s with
  | prop name => simp [reading?, name?, arity?]
  | rel name args => simp [reading?, name?, arity?]
  | _ => cases h

/-- Propositions, relations and functions are what has both a name and an arity. -/
theorem reading?_ne_none_iff {n : Node} :
    n.reading? ≠ none ↔ (∃ name, n = .prop name) ∨ (∃ name args, n = .rel name args) ∨
      ∃ name args, n = .fn name args := by
  cases n <;> simp [reading?, name?, arity?]

/-- What the arguments of a sentence tell about function names. -/
def functionReadings (s : Node) : List Reading :=
  (functionsIn s.sentenceArgs).map fun f => (f.name, f.args.length)

end Node

namespace ArityTables

/-- The two tables hold what sentences and functions have been read. -/
structure Tabulates (t : ArityTables) (ss fs : List Reading) : Prop where
  sentences : t.sentences.Tabulates ss
  functions : t.functions.Tabulates fs

theorem recordFunctions_ok {t t' : ArityTable} {fs : List Application}
    (h : recordFunctions t fs = (t', none)) :
    t.recordAll (fs.map fun f => (f.name, f.args.length)) = .ok t' := by
  induction fs generalizing t with
  | nil =>
    cases h
    rfl
  | cons f fs ih =>
    unfold recordFunctions at h
    split at h
    · rename_i table hr
      exact ArityTable.recordAll_cons.2 ⟨table, hr, ih h⟩
    · cases h

theorem recordFunctions_fault {t t' : ArityTable} {rs : List Reading} {fs : List Application}
    {f : Fault} (ht : t.Tabulates rs) (h : recordFunctions t fs = (t', some f)) :
    f.code = "E131" ∧ ¬ Uniform (rs ++ fs.map fun f => (f.name, f.args.length)) := by
  induction fs generalizing t rs with
  | nil => cases h
  | cons f fs ih =>
    unfold recordFunctions at h
    split at h
    · rename_i table hr
      simpa using ih (ht.record hr) h
    · rename_i previous hr
      cases h
      exact ⟨rfl, ht.not_uniform hr _⟩

/-- Adding the functions of a sentence changes the second table only. -/
theorem addFunctions_eq {t t' : ArityTables} {s : Node} {found : Option Fault}
    (h : t.addFunctions s = (t', found)) :
    t'.sentences = t.sentences ∧
      recordFunctions t.functions (Node.functionsIn s.sentenceArgs) = (t'.functions, found) := by
  unfold addFunctions at h
  cases h
  exact ⟨rfl, rfl⟩

section Success

variable {t t' : ArityTables}

theorem addSentence_ok {s : Node} (h : t.addSentence s = .ok t') :
    ∃ r, s.reading? = some r ∧ t.sentences.record r.1 r.2 = .ok t'.sentences ∧
      t'.functions = t.functions := by
  unfold addSentence at h
  split at h
  · cases h
  · cases h
  · rename_i name arity hn ha
    refine ⟨(name, arity), Node.reading?_eq_some.2 ⟨hn, ha⟩, ?_⟩
    split at h
    · rename_i table hr
      cases h
      exact ⟨hr, rfl⟩
    · cases h

theorem add_ok {s : Node} (h : t.add s = (t', none)) :
    ∃ r, s.reading? = some r ∧ t.sentences.record r.1 r.2 = .ok t'.sentences ∧
      t.functions.recordAll s.functionReadings = .ok t'.functions := by
  unfold add at h
  split at h
  · cases h
  · rename_i t₁ h₁
    obtain ⟨r, hr, hs, hf⟩ := addSentence_ok h₁
    rcases hadd : t₁.addFunctions s with ⟨t₂, _ | f⟩
    · rw [hadd] at h
      cases h
      obtain ⟨hsame, hrec⟩ := addFunctions_eq hadd
      rw [hf] at hrec
      exact ⟨r, hr, hsame ▸ hs, recordFunctions_ok hrec⟩
    · rw [hadd] at h
      cases h

/-- Sentences that are all recorded have names and arities, and what they tell is recorded in the
order of reading. -/
theorem addAll_ok {l : List Node} (h : t.addAll l = (t', none)) :
    (∀ s ∈ l, s.reading? ≠ none) ∧
      t.sentences.recordAll (l.filterMap Node.reading?) = .ok t'.sentences ∧
      t.functions.recordAll (l.flatMap Node.functionReadings) = .ok t'.functions := by
  induction l generalizing t with
  | nil =>
    cases h
    exact ⟨by simp, rfl, rfl⟩
  | cons s l ih =>
    unfold addAll at h
    split at h
    · rename_i t₁ h₁
      obtain ⟨r, hr, hs, hf⟩ := add_ok h₁
      obtain ⟨hread, hss, hfs⟩ := ih h
      rw [List.filterMap_cons, hr, List.flatMap_cons]
      refine ⟨?_, ArityTable.recordAll_cons.2 ⟨_, hs, hss⟩, ArityTable.recordAll_append.2 ⟨_, hf, hfs⟩⟩
      intro s' hs'
      rcases List.mem_cons.1 hs' with rfl | hs'
      · rw [hr]
        simp
      · exact hread s' hs'
    · cases h

end Success

section Add

variable {t t' : ArityTables} {ss fs : List Reading} (ht : t.Tabulates ss fs)
include ht

theorem addSentence_fault {s : Node} {f : Fault} (h : t.addSentence s = .error (.fault f)) :
    f.code = "E130" ∧ ∃ r, s.reading? = some r ∧ ∀ more, ¬ Uniform (ss ++ r :: more) := by
  unfold addSentence at h
  split at h
  · cases h
  · cases h
  · rename_i name arity hn ha
    split at h
    · cases h
    · rename_i previous hr
      cases h
      exact ⟨rfl, (name, arity), Node.reading?_eq_some.2 ⟨hn, ha⟩, ht.sentences.not_uniform hr⟩

omit ht in
theorem addSentence_malformed {s : Node} {m : Malformed} (h : t.addSentence s = .error (.malformed m)) :
    m.node = s ∧ s.reading? = none := by
  unfold addSentence at h
  split at h
  · rename_i hn
    cases h
    exact ⟨rfl, by simp [Node.reading?, hn]⟩
  · rename_i ha
    cases h
    exact ⟨rfl, by simp [Node.reading?, ha]⟩
  · split at h <;> cases h

theorem add_fault {s : Node} {f : Fault} (h : t.add s = (t', some (.fault f))) :
    f.code ∈ ["E130", "E131"] ∧ ∃ r, s.reading? = some r ∧ ∀ moreS moreF,
      ¬ (Uniform (ss ++ r :: moreS) ∧ Uniform (fs ++ (s.functionReadings ++ moreF))) := by
  unfold add at h
  split at h
  · rename_i e he
    cases h
    obtain ⟨hc, r, hr, hu⟩ := addSentence_fault ht he
    exact ⟨by simp [hc], r, hr, fun moreS _ h => hu moreS h.1⟩
  · rename_i t₁ h₁
    obtain ⟨r, hr, -, hsame⟩ := addSentence_ok h₁
    rcases hf : t₁.addFunctions s with ⟨t₂, _ | f'⟩
    · rw [hf] at h
      cases h
    · rw [hf] at h
      cases h
      obtain ⟨hc, hu⟩ := recordFunctions_fault (hsame ▸ ht.functions) (addFunctions_eq hf).2
      -- what is read after the conflict cannot take it back
      refine ⟨by simp [hc], r, hr, fun _ moreF h => hu (h.2.of_subset fun q hq => ?_)⟩
      rcases List.mem_append.1 hq with hq | hq
      · exact List.mem_append_left _ hq
      · exact List.mem_append_right _ (List.mem_append_left _ hq)

omit ht in
theorem add_malformed {s : Node} {m : Malformed} (h : t.add s = (t', some (.malformed m))) :
    m.node = s ∧ s.reading? = none := by
  unfold add at h
  split at h
  · rename_i e he
    cases h
    exact addSentence_malformed he
  · rename_i t₁ _
    rcases hf : t₁.addFunctions s with ⟨t₂, _ | f⟩
    · rw [hf] at h
      cases h
    · rw [hf] at h
      cases h

/-- A conflict shows a name with two arities among all that was to be read. -/
theorem addAll_fault {l : List Node} {f : Fault} (h : t.addAll l = (t', some (.fault f))) :
    f.code ∈ ["E130", "E131"] ∧
      ¬ (Uniform (ss ++ l.filterMap Node.reading?) ∧ Uniform (fs ++ l.flatMap Node.functionReadings)) := by
  induction l generalizing t ss fs with
  | nil => cases h
  | cons s l ih =>
    unfold addAll at h
    split at h
    · rename_i t₁ h₁
      obtain ⟨r, hr, hs, hf⟩ := add_ok h₁
      have ht₁ : t₁.Tabulates (ss ++ [r]) (fs ++ s.functionReadings) :=
        ⟨ht.sentences.record hs, ht.functions.recordAll hf⟩
      simpa [List.filterMap_cons, hr] using ih ht₁ h
    · rename_i t₁ e h₁
      cases h
      obtain ⟨hc, r, hr, hu⟩ := add_fault ht h₁
      refine ⟨hc, ?_⟩
      rw [List.filterMap_cons, hr, List.flatMap_cons]
      exact hu _ _

omit ht in
theorem addAll_malformed {l : List Node} {m : Malformed} (h : t.addAll l = (t', some (.malformed m))) :
    m.node ∈ l ∧ m.node.reading? = none := by
  induction l generalizing t with
  | nil => cases h
  | cons s l ih =>
    unfold addAll at h
    split at h
    · obtain ⟨hm, hr⟩ := ih h
      exact ⟨List.mem_cons_of_mem _ hm, hr⟩
    · rename_i t₁ e h₁
      cases h
      obtain ⟨rfl, hr⟩ := add_malformed h₁
      exact ⟨by simp, hr⟩

end Add

/-! ## The tables of a program -/

/-- The names and arities of all sentences of a program. -/
def sentenceReadings (facts : List Node) (rules : List Rule) : List Reading :=
  (sentenceOccurrences facts rules).filterMap Node.reading?

/-- The names and arities of all functions in the arguments of these sentences. -/
def nestedReadings (facts : List Node) (rules : List Rule) : List Reading :=
  (sentenceOccurrences facts rules).flatMap Node.functionReadings

theorem tabulates_empty : empty.Tabulates [] [] :=
  ⟨ArityTable.tabulates_empty, ArityTable.tabulates_empty⟩

section Build

variable {facts : List Node} {rules : List Rule}

/-- The tables of a program have recorded all that it tells, in the order of reading. -/
theorem build_recordAll {t : ArityTables} (h : build facts rules = .ok t) :
    (∀ s ∈ sentenceOccurrences facts rules, s.reading? ≠ none) ∧
      ArityTable.empty.recordAll (sentenceReadings facts rules) = .ok t.sentences ∧
      ArityTable.empty.recordAll (nestedReadings facts rules) = .ok t.functions := by
  unfold build at h
  split at h
  · rename_i t₁ h₁
    cases h
    exact addAll_ok h₁
  · cases h

theorem build_ok {t : ArityTables} (h : build facts rules = .ok t) :
    (∀ s ∈ sentenceOccurrences facts rules, s.reading? ≠ none) ∧
      t.Tabulates (sentenceReadings facts rules) (nestedReadings facts rules) := by
  obtain ⟨hread, hs, hf⟩ := build_recordAll h
  exact ⟨hread, ArityTable.tabulates_empty.recordAll hs, ArityTable.tabulates_empty.recordAll hf⟩

theorem build_fault {f : Fault} (h : build facts rules = .error (.fault f)) :
    f.code ∈ ["E130", "E131"] ∧
      ¬ (Uniform (sentenceReadings facts rules) ∧ Uniform (nestedReadings facts rules)) := by
  unfold build at h
  split at h
  · cases h
  · rename_i t₁ e h₁
    cases h
    exact addAll_fault tabulates_empty h₁

theorem build_malformed {m : Malformed} (h : build facts rules = .error (.malformed m)) :
    m.node ∈ sentenceOccurrences facts rules ∧ m.node.reading? = none := by
  unfold build at h
  split at h
  · cases h
  · rename_i t₁ e h₁
    cases h
    exact addAll_malformed h₁

end Build

end ArityTables

/-! ## What occurs in a program -/

section Occurring

variable {facts : List Node} {rules : List Rule}

/-- A sentence of a program: a fact, the head of a rule, or a sentence in the body of one. -/
def SentenceOf (facts : List Node) (rules : List Rule) (s : Node) : Prop :=
  s ∈ facts ∨ ∃ r ∈ rules, s = r.head ∨ ∃ negated, r.Uses s negated

/-- A function of a program: it stands, at any depth, in an argument of one of its sentences. -/
def FunctionOf (facts : List Node) (rules : List Rule) (f : Application) : Prop :=
  ∃ s, SentenceOf facts rules s ∧ ∃ a ∈ s.sentenceArgs, Node.TermIn f.toNode a

theorem mem_sentenceOccurrences {s : Node} :
    s ∈ sentenceOccurrences facts rules ↔ SentenceOf facts rules s := by
  unfold sentenceOccurrences Rule.sentences SentenceOf
  simp only [List.mem_append, List.mem_flatMap, List.mem_cons, Rule.mem_bodySentences]

theorem mem_sentenceReadings {name : String} {k : Nat} :
    (name, k) ∈ ArityTables.sentenceReadings facts rules ↔
      ∃ s, SentenceOf facts rules s ∧ s.name? = some name ∧ s.arity? = some k := by
  unfold ArityTables.sentenceReadings
  simp only [List.mem_filterMap, mem_sentenceOccurrences, Node.reading?_eq_some]

theorem mem_nestedReadings {name : String} {k : Nat} :
    (name, k) ∈ ArityTables.nestedReadings facts rules ↔
      ∃ f, FunctionOf facts rules f ∧ f.name = name ∧ f.args.length = k := by
  unfold ArityTables.nestedReadings Node.functionReadings FunctionOf
  simp only [List.mem_flatMap, List.mem_map, mem_sentenceOccurrences, Node.mem_functionsIn,
    Prod.mk.injEq]
  constructor
  · rintro ⟨s, hs, f, hf, hn, hk⟩
    exact ⟨f, ⟨s, hs, hf⟩, hn, hk⟩
  · rintro ⟨f, ⟨s, hs, hf⟩, hn, hk⟩
    exact ⟨s, hs, f, hf, hn, hk⟩

/-- Sentences of one name have one arity, and functions of one name have one arity. -/
structure ConsistentArities (facts : List Node) (rules : List Rule) : Prop where
  sentences : ∀ s s', SentenceOf facts rules s → SentenceOf facts rules s' → s.name? = s'.name? →
    s.arity? = s'.arity?
  functions : ∀ f f', FunctionOf facts rules f → FunctionOf facts rules f' → f.name = f'.name →
    f.args.length = f'.args.length

theorem consistentArities_iff (hread : ∀ s, SentenceOf facts rules s → s.reading? ≠ none) :
    ConsistentArities facts rules ↔
      Uniform (ArityTables.sentenceReadings facts rules) ∧
        Uniform (ArityTables.nestedReadings facts rules) := by
  constructor
  · rintro ⟨hs, hf⟩
    refine ⟨fun name j k hj hk => ?_, fun name j k hj hk => ?_⟩
    · obtain ⟨s, hs₁, hn₁, ha₁⟩ := mem_sentenceReadings.1 hj
      obtain ⟨s', hs₂, hn₂, ha₂⟩ := mem_sentenceReadings.1 hk
      have h := hs s s' hs₁ hs₂ (hn₁.trans hn₂.symm)
      rwa [ha₁, ha₂, Option.some.injEq] at h
    · obtain ⟨f, hf₁, hn₁, rfl⟩ := mem_nestedReadings.1 hj
      obtain ⟨f', hf₂, hn₂, rfl⟩ := mem_nestedReadings.1 hk
      exact hf f f' hf₁ hf₂ (hn₁.trans hn₂.symm)
  · rintro ⟨hs, hf⟩
    refine ⟨fun s s' h h' hn => ?_, fun f f' h h' hn => ?_⟩
    · obtain ⟨⟨name, j⟩, hr⟩ := Option.ne_none_iff_exists'.1 (hread s h)
      obtain ⟨⟨name', k⟩, hr'⟩ := Option.ne_none_iff_exists'.1 (hread s' h')
      obtain ⟨hn₁, ha₁⟩ := Node.reading?_eq_some.1 hr
      obtain ⟨hn₂, ha₂⟩ := Node.reading?_eq_some.1 hr'
      rw [hn₁, hn₂, Option.some.injEq] at hn
      subst hn
      rw [ha₁, ha₂, hs name j k (mem_sentenceReadings.2 ⟨s, h, hn₁, ha₁⟩)
        (mem_sentenceReadings.2 ⟨s', h', hn₂, ha₂⟩)]
    · exact hf f.name _ _ (mem_nestedReadings.2 ⟨f, h, rfl, rfl⟩)
        (mem_nestedReadings.2 ⟨f', h', hn.symm, rfl⟩)

/-- The tables can be built exactly if the arities of a program are consistent. -/
theorem ArityTables.build_isOk_iff (hread : ∀ s, SentenceOf facts rules s → s.reading? ≠ none) :
    (∃ t, build facts rules = .ok t) ↔ ConsistentArities facts rules := by
  rw [consistentArities_iff hread]
  constructor
  · rintro ⟨t, ht⟩
    have h := (build_ok ht).2
    exact ⟨h.sentences.uniform, h.functions.uniform⟩
  · intro hu
    rcases hb : build facts rules with (f | m) | t
    · exact absurd hu (build_fault hb).2
    · obtain ⟨hm, hn⟩ := build_malformed hb
      exact absurd hn (hread m.node (mem_sentenceOccurrences.1 hm))
    · exact ⟨t, rfl⟩

end Occurring

end GameRules
