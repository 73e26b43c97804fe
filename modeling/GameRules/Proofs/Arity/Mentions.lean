/-
The arity tables, said of the places where names are mentioned. A sentence mentions its own name, and
right behind it come the functions in its arguments. The tables of a program can be built exactly if
all mentions of a name agree; then they list the names in the order in which each is mentioned first.
Otherwise the fault is about the first place that disagrees with an earlier one.
-/
import GameRules.Proofs.Arity.Calls
import GameRules.Proofs.Arity.Order
import GameRules.Proofs.Node.Places

namespace GameRules

/-! ## Mentions -/

/-- The two kinds of names that have an arity. -/
inductive NameKind where
  | sentence
  | function
  deriving DecidableEq

/-- The code of a conflict between names of a kind. -/
def NameKind.code : NameKind → String
  | sentence => "E130"
  | function => "E131"

/-- A name of a kind with the arity that it has where it is mentioned. -/
structure Mention where
  kind : NameKind
  name : String
  arity : Nat

/-- What a function tells about its name. -/
def Application.mention (f : Application) : Mention := ⟨.function, f.name, f.args.length⟩

/-- A sentence of a program stands at a place: the facts come first, and then, rule by rule, the head
and what stands in the body. -/
inductive SentenceAt (facts : List Node) (rules : List Rule) : Place → Node → Prop where
  | fact {i : Nat} {s : Node} : facts[i]? = some s → SentenceAt facts rules [0, i] s
  | head {i : Nat} {r : Rule} : rules[i]? = some r → SentenceAt facts rules [1, i, 0] r.head
  | body {i j : Nat} {r : Rule} {l s : Node} {way : Place} : rules[i]? = some r →
    r.body[j]? = some l → Node.OccursAt s way l → SentenceAt facts rules (1 :: i :: 1 :: j :: way) s

/-- What a sentence mentions: its own name, and at their places in its arguments the names of
functions. -/
inductive Node.Tells : Node → Place → Mention → Prop where
  | name {s : Node} {name : String} {k : Nat} : s.name? = some name → s.arity? = some k →
    Tells s [] ⟨.sentence, name, k⟩
  | function {name : String} {args : List Node} {i : Nat} {a : Node} {f : Application} {way : Place} :
    args[i]? = some a → TermAt f.toNode way a →
    Tells (rel name args) (i :: way) f.mention

/-- A program mentions a name at a place. -/
def Told (facts : List Node) (rules : List Rule) (p : Place) (m : Mention) : Prop :=
  ∃ q s way, SentenceAt facts rules q s ∧ p = q ++ way ∧ s.Tells way m

/-- All mentions of a name of a kind have the same arity. -/
def OneArity (facts : List Node) (rules : List Rule) (kind : NameKind) : Prop :=
  ∀ p q name j k, Told facts rules p ⟨kind, name, j⟩ → Told facts rules q ⟨kind, name, k⟩ → j = k

/-- A mention disagrees with one at an earlier place. -/
def Clashes (facts : List Node) (rules : List Rule) (p : Place) (m : Mention) : Prop :=
  Told facts rules p m ∧ ∃ q k, q < p ∧ Told facts rules q ⟨m.kind, m.name, k⟩ ∧ k ≠ m.arity

/-- A mention disagrees with an earlier one, and no mention before it does. -/
def ClashesFirst (facts : List Node) (rules : List Rule) (p : Place) (m : Mention) : Prop :=
  Clashes facts rules p m ∧ ∀ q m', Clashes facts rules q m' → (q = p ∧ m' = m) ∨ p < q

/-- Some mention of a name of a kind comes before all mentions of another one. -/
def MentionedBefore (facts : List Node) (rules : List Rule) (kind : NameKind) (a b : String) : Prop :=
  ∃ p k, Told facts rules p ⟨kind, a, k⟩ ∧ ∀ q j, Told facts rules q ⟨kind, b, j⟩ → p < q

/-- A table holds the names of a kind that a program mentions, each with its arity, in the order in
which each is mentioned first. -/
structure ArityTable.Covers (t : ArityTable) (facts : List Node) (rules : List Rule) (kind : NameKind) :
    Prop where
  arity : ∀ name j, t.arity? name = some j ↔ ∃ p k, Told facts rules p ⟨kind, name, k⟩ ∧ (k : Int) = j
  order : t.names.Pairwise (MentionedBefore facts rules kind)

/-! ## Mentions in the order of their places -/

namespace Node

def mentions (s : Node) : List Mention :=
  (s.reading?.map fun r => ⟨.sentence, r.1, r.2⟩).toList ++
    (functionsIn s.sentenceArgs).map Application.mention

theorem tells_iff {s : Node} {p : Place} {m : Mention} :
    s.Tells p m ↔ (p = [] ∧ ∃ r, s.reading? = some r ∧ m = ⟨.sentence, r.1, r.2⟩) ∨
      ∃ f : Application, (∃ i a way, s.sentenceArgs[i]? = some a ∧ p = i :: way ∧ TermAt f.toNode way a) ∧
        f.mention = m := by
  constructor
  · intro h
    cases h with
    | name hn hk => exact .inl ⟨rfl, _, reading?_eq_some.2 ⟨hn, hk⟩, rfl⟩
    | @function _ _ _ _ f _ ha hf => exact .inr ⟨f, ⟨_, _, _, ha, rfl, hf⟩, rfl⟩
  · rintro (⟨rfl, ⟨name, k⟩, hr, rfl⟩ | ⟨f, ⟨i, a, way, ha, rfl, hf⟩, rfl⟩)
    · obtain ⟨hn, hk⟩ := reading?_eq_some.1 hr
      exact .name hn hk
    · cases s with
      | rel name args => exact .function ha hf
      | _ => simp [sentenceArgs] at ha

theorem inOrder_mentions (s : Node) : InOrder s.Tells s.mentions := by
  have hfunctions := (inOrder_functionsIn s.sentenceArgs).map Application.mention
  unfold mentions
  cases hr : s.reading? with
  | none =>
    refine hfunctions.congr fun p m => ?_
    simp [tells_iff, hr]
  | some r =>
    refine (hfunctions.cons (p := []) ?_).congr fun p m => ?_
    · rintro q m ⟨f, ⟨i, a, way, -, rfl, -⟩, -⟩
      exact List.nil_lt_cons i way
    · simp [tells_iff, hr]

/-- What is mentioned in a literal. -/
def ToldIn (l : Node) (p : Place) (m : Mention) : Prop :=
  ∃ q s way, OccursAt s q l ∧ p = q ++ way ∧ s.Tells way m

theorem inOrder_literal (l : Node) : InOrder l.ToldIn (l.sentences.flatMap mentions) := by
  induction l with
  | neg body ih =>
    refine (ih.enter 0).congr fun p m => ?_
    constructor
    · rintro ⟨_, rfl, q, s, way, hs, rfl, hm⟩
      exact ⟨0 :: q, s, way, .neg hs, rfl, hm⟩
    · rintro ⟨q, s, way, hs, rfl, hm⟩
      obtain ⟨q', rfl, hs'⟩ := occursAt_neg.1 hs
      exact ⟨q' ++ way, rfl, q', s, way, hs', rfl, hm⟩
  | disj ds ih =>
    rw [sentences, sentencesIn_eq_flatMap, List.flatMap_assoc]
    refine (inOrder_flatMap ih).congr fun p m => ?_
    constructor
    · rintro ⟨i, d, _, hd, rfl, q, s, way, hs, rfl, hm⟩
      exact ⟨i :: q, s, way, .disj hd hs, rfl, hm⟩
    · rintro ⟨q, s, way, hs, rfl, hm⟩
      obtain ⟨i, d, q', hd, rfl, hs'⟩ := occursAt_disj.1 hs
      exact ⟨i, d, q' ++ way, hd, rfl, q', s, way, hs', rfl, hm⟩
  | prop name =>
    rw [sentences, List.flatMap_singleton]
    refine (inOrder_mentions _).congr fun p m => ?_
    simp [ToldIn, occursAt_iff_eq, isSentence]
  | rel name args =>
    rw [sentences, List.flatMap_singleton]
    refine (inOrder_mentions _).congr fun p m => ?_
    simp [ToldIn, occursAt_iff_eq, isSentence]
  | _ =>
    refine inOrder_nil fun p m => ?_
    rintro ⟨q, s, way, hs, -⟩
    simp [occursAt_iff_eq, isSentence] at hs

end Node

/-- All that a program mentions, in the order of reading. -/
def mentionsOf (facts : List Node) (rules : List Rule) : List Mention :=
  (sentenceOccurrences facts rules).flatMap Node.mentions

/-- What is mentioned in a rule: in its head, and then in its body. -/
def Rule.ToldIn (r : Rule) (p : Place) (m : Mention) : Prop :=
  (∃ way, p = 0 :: way ∧ r.head.Tells way m) ∨
    ∃ q, p = 1 :: q ∧ ∃ j l way, r.body[j]? = some l ∧ q = j :: way ∧ l.ToldIn way m

theorem Rule.inOrder_sentences (r : Rule) : InOrder r.ToldIn (r.sentences.flatMap Node.mentions) := by
  have hbody : InOrder _ (r.body.flatMap fun l => l.sentences.flatMap Node.mentions) :=
    inOrder_flatMap fun l _ => Node.inOrder_literal l
  rw [sentences, bodySentences, List.flatMap_cons, Node.sentencesIn_eq_flatMap, List.flatMap_assoc]
  exact (Node.inOrder_mentions r.head).pair hbody

/-- The mentions of a program are read in the order of their places. -/
theorem inOrder_mentionsOf (facts : List Node) (rules : List Rule) :
    InOrder (Told facts rules) (mentionsOf facts rules) := by
  have hfacts : InOrder _ (facts.flatMap Node.mentions) :=
    inOrder_flatMap fun s _ => Node.inOrder_mentions s
  have hrules : InOrder _ (rules.flatMap fun r => r.sentences.flatMap Node.mentions) :=
    inOrder_flatMap fun r _ => r.inOrder_sentences
  rw [mentionsOf, sentenceOccurrences, List.flatMap_append, List.flatMap_assoc]
  refine (hfacts.pair hrules).congr fun p m => ?_
  constructor
  · rintro (⟨_, rfl, i, s, way, hs, rfl, hm⟩ | ⟨_, rfl, i, r, _, hr, rfl, hm⟩)
    · exact ⟨[0, i], s, way, .fact hs, rfl, hm⟩
    · rcases hm with ⟨way, rfl, hm⟩ | ⟨_, rfl, j, l, _, hl, rfl, q, s, way, hs, rfl, hm⟩
      · exact ⟨[1, i, 0], r.head, way, .head hr, rfl, hm⟩
      · exact ⟨1 :: i :: 1 :: j :: q, s, way, .body hr hl hs, rfl, hm⟩
  · rintro ⟨q, s, way, hs, rfl, hm⟩
    cases hs with
    | @fact i s hs => exact .inl ⟨i :: way, rfl, i, s, way, hs, rfl, hm⟩
    | @head i r hr => exact .inr ⟨_, rfl, i, r, 0 :: way, hr, rfl, .inl ⟨way, rfl, hm⟩⟩
    | @body i j r l s q hr hl hs =>
      exact .inr ⟨_, rfl, i, r, _, hr, rfl, .inr ⟨_, rfl, j, l, _, hl, rfl, q, s, way, hs, rfl, hm⟩⟩

/-! ## What the tables record of mentions -/

/-- The names of a kind that are mentioned, with their arities. -/
def readings (kind : NameKind) (ms : List Mention) : List Reading :=
  ms.filterMap fun m => if m.kind = kind then some (m.name, m.arity) else none

theorem mem_readings {kind : NameKind} {ms : List Mention} {name : String} {k : Nat} :
    (name, k) ∈ readings kind ms ↔ ⟨kind, name, k⟩ ∈ ms := by
  unfold readings
  rw [List.mem_filterMap]
  constructor
  · rintro ⟨m, hm, h⟩
    split at h
    · rename_i hk
      cases h
      subst hk
      exact hm
    · cases h
  · intro hm
    exact ⟨_, hm, by simp⟩

theorem readings_append (kind : NameKind) (ms ms' : List Mention) :
    readings kind (ms ++ ms') = readings kind ms ++ readings kind ms' :=
  List.filterMap_append

namespace ArityTables

/-- The table for the names of a kind. -/
def table (t : ArityTables) : NameKind → ArityTable
  | .sentence => t.sentences
  | .function => t.functions

/-- The tables have recorded some mentions, one after another. -/
def Records (t : ArityTables) (ms : List Mention) (t' : ArityTables) : Prop :=
  ∀ kind, (t.table kind).recordAll (readings kind ms) = .ok (t'.table kind)

theorem Records.append {t t₁ t' : ArityTables} {ms ms' : List Mention} (h : t.Records ms t₁)
    (h' : t₁.Records ms' t') : t.Records (ms ++ ms') t' := by
  intro kind
  rw [readings_append]
  exact ArityTable.recordAll_append.2 ⟨_, h kind, h' kind⟩

/-- The tables have recorded mentions up to one that the table of its kind refuses, and the fault is
about that one. -/
def StopsAt (t : ArityTables) (ms : List Mention) (t' : ArityTables) (f : Fault) : Prop :=
  ∃ before m after previous, ms = before ++ m :: after ∧ t.Records before t' ∧
    (t'.table m.kind).record m.name m.arity = .error previous ∧
    f.code = m.kind.code ∧ f.subject = .name m.name

theorem StopsAt.prepend {t t₁ t' : ArityTables} {ms ms' : List Mention} {f : Fault} (h : t.Records ms t₁)
    (h' : t₁.StopsAt ms' t' f) : t.StopsAt (ms ++ ms') t' f := by
  obtain ⟨before, m, after, previous, rfl, hrec, hm⟩ := h'
  exact ⟨ms ++ before, m, after, previous, by simp, h.append hrec, hm⟩

theorem StopsAt.more {t t' : ArityTables} {ms : List Mention} {f : Fault} (h : t.StopsAt ms t' f)
    (more : List Mention) : t.StopsAt (ms ++ more) t' f := by
  obtain ⟨before, m, after, previous, rfl, hm⟩ := h
  exact ⟨before, m, after ++ more, previous, by simp, hm⟩

theorem records_sentence {t t' : ArityTables} {r : Reading}
    (hs : t.sentences.record r.1 r.2 = .ok t'.sentences) (hf : t'.functions = t.functions) :
    t.Records [⟨.sentence, r.1, r.2⟩] t' := by
  intro kind
  cases kind with
  | sentence => exact ArityTable.recordAll_singleton.2 hs
  | function => exact congrArg _ hf.symm

theorem records_functions {t t' : ArityTables} {fs : List Application}
    (hs : t'.sentences = t.sentences)
    (hf : t.functions.recordAll (fs.map fun f => (f.name, f.args.length)) = .ok t'.functions) :
    t.Records (fs.map Application.mention) t' := by
  intro kind
  cases kind with
  | sentence =>
    have hnone : readings .sentence (fs.map Application.mention) = [] := by
      simp [readings, Application.mention]
    rw [hnone]
    exact congrArg _ hs.symm
  | function =>
    have hall : readings .function (fs.map Application.mention) =
        fs.map fun f => (f.name, f.args.length) := by
      simp [readings, Application.mention, List.filterMap_map, Function.comp_def]
    rw [hall]
    exact hf

section Add

variable {t t' : ArityTables} {s : Node} {f : Fault}

theorem addSentence_refused (h : t.addSentence s = .error (.fault f)) :
    ∃ r previous, s.reading? = some r ∧ t.sentences.record r.1 r.2 = .error previous ∧
      f.code = "E130" ∧ f.subject = .name r.1 := by
  unfold addSentence at h
  split at h
  · cases h
  · cases h
  · rename_i name k hn hk
    split at h
    · cases h
    · rename_i previous hr
      cases h
      exact ⟨(name, k), previous, Node.reading?_eq_some.2 ⟨hn, hk⟩, hr, rfl, rfl⟩

theorem mentions_eq {r : Reading} (hr : s.reading? = some r) :
    s.mentions = [⟨.sentence, r.1, r.2⟩] ++
      (Node.functionsIn s.sentenceArgs).map Application.mention := by
  simp [Node.mentions, hr]

/-- A sentence with its functions is recorded mention by mention. -/
theorem add_records (h : t.add s = (t', none)) : t.Records s.mentions t' := by
  obtain ⟨r, hr, hs, hf⟩ := add_ok h
  have h₁ : t.Records _ { t with sentences := t'.sentences } := records_sentence hs rfl
  rw [mentions_eq hr]
  exact h₁.append (records_functions rfl hf)

theorem add_stops (h : t.add s = (t', some (.fault f))) : t.StopsAt s.mentions t' f := by
  unfold add at h
  split at h
  · rename_i e he
    cases h
    obtain ⟨r, previous, hr, hrefused, hcode, hsubject⟩ := addSentence_refused he
    rw [mentions_eq hr]
    exact ⟨[], _, _, previous, rfl, fun _ => rfl, hrefused, hcode, hsubject⟩
  · rename_i t₁ h₁
    obtain ⟨r, hr, hs, hsame⟩ := addSentence_ok h₁
    rw [mentions_eq hr]
    rcases hadd : t₁.addFunctions s with ⟨t₂, _ | f'⟩
    · rw [hadd] at h
      cases h
    · rw [hadd] at h
      cases h
      obtain ⟨hsentences, hrec⟩ := addFunctions_eq hadd
      obtain ⟨before, g, after, previous, hfs, hall, hrefused, rfl⟩ := recordFunctions_stops hrec
      refine StopsAt.prepend (records_sentence hs hsame) ?_
      exact ⟨before.map Application.mention, g.mention, after.map Application.mention, previous,
        by simp [hfs], records_functions hsentences hall, hrefused, rfl, rfl⟩

end Add

theorem addAll_records {t t' : ArityTables} {l : List Node} (h : t.addAll l = (t', none)) :
    t.Records (l.flatMap Node.mentions) t' := by
  induction l generalizing t with
  | nil =>
    cases h
    exact fun _ => rfl
  | cons s l ih =>
    unfold addAll at h
    split at h
    · rename_i t₁ h₁
      rw [List.flatMap_cons]
      exact (add_records h₁).append (ih h)
    · cases h

theorem addAll_stops {t t' : ArityTables} {l : List Node} {f : Fault}
    (h : t.addAll l = (t', some (.fault f))) : t.StopsAt (l.flatMap Node.mentions) t' f := by
  induction l generalizing t with
  | nil => cases h
  | cons s l ih =>
    rw [List.flatMap_cons]
    unfold addAll at h
    split at h
    · rename_i t₁ h₁
      exact (ih h).prepend (add_records h₁)
    · rename_i t₁ e h₁
      cases h
      exact (add_stops h₁).more _

/-! ## The tables of a program -/

section Build

variable {facts : List Node} {rules : List Rule}

theorem build_records {t : ArityTables} (h : build facts rules = .ok t) :
    empty.Records (mentionsOf facts rules) t := by
  unfold build at h
  split at h
  · rename_i t₁ h₁
    cases h
    exact addAll_records h₁
  · cases h

theorem build_stops {f : Fault} (h : build facts rules = .error (.fault f)) :
    ∃ t, empty.StopsAt (mentionsOf facts rules) t f := by
  unfold build at h
  split at h
  · cases h
  · rename_i t₁ e h₁
    cases h
    exact ⟨t₁, addAll_stops h₁⟩

theorem Records.tabulates {ms : List Mention} {t : ArityTables} (h : empty.Records ms t)
    (kind : NameKind) : (t.table kind).Tabulates (readings kind ms) := by
  have hr := h kind
  cases kind with
  | sentence => exact ArityTable.tabulates_empty.recordAll hr
  | function => exact ArityTable.tabulates_empty.recordAll hr

theorem Records.listsInOrder {ms : List Mention} {t : ArityTables} (h : empty.Records ms t)
    (kind : NameKind) : (t.table kind).ListsInOrder ((readings kind ms).map (·.1)) := by
  have hr := h kind
  cases kind with
  | sentence => exact ArityTable.listsInOrder_empty.recordAll hr
  | function => exact ArityTable.listsInOrder_empty.recordAll hr

theorem mem_readings_mentionsOf {kind : NameKind} {name : String} {k : Nat} :
    (name, k) ∈ readings kind (mentionsOf facts rules) ↔ ∃ p, Told facts rules p ⟨kind, name, k⟩ := by
  rw [mem_readings, (inOrder_mentionsOf facts rules).mem_iff]

/-- The names of a kind are read in the order of the places where they are mentioned. -/
theorem inOrder_names (facts : List Node) (rules : List Rule) (kind : NameKind) :
    InOrder (fun p name => ∃ k, Told facts rules p ⟨kind, name, k⟩)
      ((readings kind (mentionsOf facts rules)).map (·.1)) := by
  have h := ((inOrder_mentionsOf facts rules).filterMap
    fun m => if m.kind = kind then some (m.name, m.arity) else none).map (·.1)
  refine h.congr fun p name => ?_
  constructor
  · rintro ⟨⟨name, k⟩, ⟨m, hm, hk⟩, rfl⟩
    split at hk
    · rename_i hkind
      cases hk
      subst hkind
      exact ⟨m.arity, hm⟩
    · cases hk
  · rintro ⟨k, hm⟩
    exact ⟨(name, k), ⟨_, hm, by simp⟩, rfl⟩

theorem Records.covers {t : ArityTables} (h : empty.Records (mentionsOf facts rules) t)
    (kind : NameKind) : (t.table kind).Covers facts rules kind := by
  refine ⟨fun name j => ?_, ?_⟩
  · rw [h.tabulates kind]
    simp only [mem_readings_mentionsOf]
    constructor
    · rintro ⟨k, ⟨p, hp⟩, hk⟩
      exact ⟨p, k, hp, hk⟩
    · rintro ⟨p, k, hp, hk⟩
      exact ⟨k, ⟨p, hp⟩, hk⟩
  · have hlists := h.listsInOrder kind
    refine hlists.order.imp_of_mem fun {a b} ha hb hab => ?_
    obtain ⟨p, ⟨k, hp⟩, hbefore⟩ :=
      (inOrder_names facts rules kind).before_of_idxOf_lt ((hlists.mem a).1 ha) hab
    exact ⟨p, k, hp, fun q j hq => hbefore q ⟨j, hq⟩⟩

theorem Records.oneArity {t : ArityTables} (h : empty.Records (mentionsOf facts rules) t)
    (kind : NameKind) : OneArity facts rules kind := by
  intro p q name j k hj hk
  exact (h.tabulates kind).uniform name j k (mem_readings_mentionsOf.2 ⟨p, hj⟩)
    (mem_readings_mentionsOf.2 ⟨q, hk⟩)

/-- Where the tables stop, a mention clashes with an earlier one for the first time. -/
theorem StopsAt.clashesFirst {t : ArityTables} {f : Fault}
    (h : empty.StopsAt (mentionsOf facts rules) t f) :
    ∃ p m, ClashesFirst facts rules p m ∧ f.code = m.kind.code ∧ f.subject = .name m.name := by
  obtain ⟨before, m, after, previous, hcut, hrec, hrefused, hf⟩ := h
  have hin := inOrder_mentionsOf facts rules
  rw [hcut] at hin
  obtain ⟨p, hp, hbefore, hothers⟩ := hin.cut
  refine ⟨p, m, ⟨⟨hp, ?_⟩, ?_⟩, hf⟩
  · -- the refused mention disagrees with what its table has read
    obtain ⟨hprevious, hne⟩ := ArityTable.record_error hrefused
    obtain ⟨k, hk, rfl⟩ := (hrec.tabulates m.kind m.name previous).1 hprevious
    obtain ⟨q, hq, htold⟩ := hbefore _ (mem_readings.1 hk)
    exact ⟨q, k, hq, htold, fun hkm => hne (congrArg _ hkm)⟩
  · -- before it all mentions are in tables, which hold one arity for each name
    rintro q m' ⟨hm', q', k, hlt, hk, hne⟩
    rcases hothers q m' hm' with ⟨hq, hmem⟩ | hq
    · have hmem' : ⟨m'.kind, m'.name, k⟩ ∈ before := by
        rcases hothers q' _ hk with ⟨-, hmem'⟩ | ⟨rfl, -⟩ | hp'
        · exact hmem'
        · exact absurd (List.lt_trans hlt hq) (List.lt_irrefl _)
        · exact absurd (List.lt_trans (List.lt_trans hlt hq) hp') (List.lt_irrefl _)
      exact absurd ((hrec.tabulates m'.kind).uniform m'.name k m'.arity (mem_readings.2 hmem')
        (mem_readings.2 hmem)) hne
    · exact hq

/-- Facts that are relations and heads that are sentences or functions have names and arities. -/
theorem reading?_ne_none_of_heads (hfacts : ∀ n ∈ facts, n.isRelation = true)
    (hheads : ∀ r ∈ rules, (∃ name, r.head = .prop name) ∨ (∃ name args, r.head = .rel name args) ∨
      ∃ name args, r.head = .fn name args) {s : Node} (hs : s ∈ sentenceOccurrences facts rules) :
    s.reading? ≠ none := by
  rcases mem_sentenceOccurrences.1 hs with hs | ⟨r, hr, rfl | ⟨negated, l, -, ho⟩⟩
  · have hrel := hfacts s hs
    cases s with
    | rel name args => exact Node.reading?_ne_none rfl
    | _ => cases hrel
  · exact Node.reading?_ne_none_iff.2 (hheads r hr)
  · exact Node.reading?_ne_none ho.isSentence

end Build

/-- The tables of relations and of rules whose heads are propositions, relations or functions. They can
be built exactly if all mentions of a sentence name agree in their arity, and all mentions of a
function name do. Then the two tables list these names and arities in the order of first mention.
Otherwise the fault is about the first mention that disagrees with an earlier one. -/
theorem build_covers_or_clashes (facts : List Node) (rules : List Rule)
    (hfacts : ∀ n ∈ facts, n.isRelation = true)
    (hheads : ∀ r ∈ rules, (∃ name, r.head = .prop name) ∨ (∃ name args, r.head = .rel name args) ∨
      ∃ name args, r.head = .fn name args) :
    ((∃ t, build facts rules = .ok t) ↔
      OneArity facts rules .sentence ∧ OneArity facts rules .function) ∧
    (∀ t, build facts rules = .ok t →
      t.sentences.Covers facts rules .sentence ∧ t.functions.Covers facts rules .function) ∧
    ∀ e, build facts rules = .error e → ∃ f p m, e = .fault f ∧ ClashesFirst facts rules p m ∧
      f.code = m.kind.code ∧ f.subject = .name m.name := by
  have herror : ∀ e, build facts rules = .error e → ∃ f p m, e = .fault f ∧
      ClashesFirst facts rules p m ∧ f.code = m.kind.code ∧ f.subject = .name m.name := by
    rintro (f | m) he
    · obtain ⟨t, hstops⟩ := build_stops he
      obtain ⟨p, m, hfirst, hf⟩ := hstops.clashesFirst
      exact ⟨f, p, m, rfl, hfirst, hf⟩
    · obtain ⟨hm, hnone⟩ := build_malformed he
      exact absurd hnone (reading?_ne_none_of_heads hfacts hheads hm)
  refine ⟨⟨?_, ?_⟩, fun t ht => ?_, herror⟩
  · rintro ⟨t, ht⟩
    have hrec := build_records ht
    exact ⟨hrec.oneArity .sentence, hrec.oneArity .function⟩
  · rintro ⟨hs, hf⟩
    cases hb : build facts rules with
    | ok t => exact ⟨t, rfl⟩
    | error e =>
      obtain ⟨-, p, ⟨kind, name, k⟩, -, ⟨⟨hp, q, j, -, hq, hne⟩, -⟩, -⟩ := herror e hb
      cases kind with
      | sentence => exact absurd (hs q p name j k hq hp) hne
      | function => exact absurd (hf q p name j k hq hp) hne
  · have hrec := build_records ht
    exact ⟨hrec.covers .sentence, hrec.covers .function⟩

/-- The facts of a board. -/
def boardFacts : List Node := [.rel "cell" [.fn "at" [.const "a", .fn "row" [.const "1"]]]]

/-- A line of the board; its head is a function. -/
def lineRules : List Rule :=
  [⟨.fn "line" [.var "?x"], [.disj [.neg (.rel "cell" [.fn "at" [.var "?x", .var "?y"]]), .prop "full"]]⟩]

/-- Below a negation a function comes with another arity, and then a sentence does. -/
def crookedRules : List Rule :=
  [⟨.prop "full", [.disj [.neg (.rel "cell" [.fn "at" [.fn "at" [.const "a"], .var "?x"]]),
    .rel "cell" [.var "?x", .var "?y"]]]⟩]

/-- The tables of the line follow the order of first mention; in the crooked game the nested function is
reported, which is mentioned before the sentence that clashes too. -/
theorem mentions_of_two_games :
    (ArityTable.mk [("cell", 1), ("line", 1), ("full", 0)]).Covers boardFacts lineRules .sentence ∧
    (ArityTable.mk [("at", 2), ("row", 1)]).Covers boardFacts lineRules .function ∧
    ∃ p k, ClashesFirst boardFacts crookedRules p ⟨.function, "at", k⟩ := by
  have hline : build boardFacts lineRules =
      .ok ⟨⟨[("cell", 1), ("line", 1), ("full", 0)]⟩, ⟨[("at", 2), ("row", 1)]⟩⟩ := rfl
  have hcrooked : build boardFacts crookedRules = .error (.fault (.functionArity "at" 1 2)) := rfl
  obtain ⟨-, hcovers, -⟩ := build_covers_or_clashes boardFacts lineRules (by decide)
    (by simp [lineRules])
  obtain ⟨-, -, hclash⟩ := build_covers_or_clashes boardFacts crookedRules (by decide)
    (by simp [crookedRules])
  obtain ⟨f, p, ⟨kind, name, k⟩, hf, hfirst, hcode, hsubject⟩ := hclash _ hcrooked
  cases hf
  cases hsubject
  cases kind with
  | sentence => simp [Fault.code, NameKind.code] at hcode
  | function => exact ⟨(hcovers _ hline).1, (hcovers _ hline).2, p, k, hfirst⟩

end ArityTables

end GameRules
