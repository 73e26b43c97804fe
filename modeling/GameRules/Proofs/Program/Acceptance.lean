/-
What it takes to be accepted. Nine conditions are said of the items and the keywords alone, without
tables, graphs or searches, and numbered in the order in which a validation comes to them. A
description is accepted exactly if it meets them all; otherwise the fault that it is refused for
belongs to the first one that it breaks.
-/
import GameRules.Proofs.Graph.Strata
import GameRules.Proofs.Keyword.Use
import GameRules.Proofs.Node.EmptyForm
import GameRules.Proofs.Program.Analysis
import GameRules.Proofs.Rule.Safety

namespace GameRules

/-! ## Negations -/

namespace Node

theorem negationFault?_eq_none_iff {l : Node} :
    l.negationFault? = none ↔ ∀ body, neg body ∈ l.leaves → body.isSentence = true := by
  induction l with
  | neg body => simp [negationFault?, leaves]
  | disj ds ih =>
    rw [negationFault?, negationFaultIn?_eq_findSome?, List.findSome?_eq_none_iff]
    simp only [mem_leaves_disj]
    constructor
    · rintro h body ⟨d, hd, hb⟩
      exact (ih d hd).1 (h d hd) body hb
    · intro h d hd
      exact (ih d hd).2 fun body hb => h body ⟨d, hd, hb⟩
  | _ => simp [negationFault?, leaves]

theorem negationFault?_code {l : Node} {f : Fault} (h : l.negationFault? = some f) :
    f.code = "E120" := by
  induction l with
  | neg body =>
    rw [negationFault?] at h
    split at h <;> cases h
    rfl
  | disj ds ih =>
    rw [negationFault?, negationFaultIn?_eq_findSome?] at h
    obtain ⟨d, hd, h⟩ := List.exists_of_findSome?_eq_some h
    exact ih d hd h
  | _ => cases h

end Node

namespace Rule

/-- Each negation in a body, also one inside disjunctions, holds a sentence. -/
def NegatesSentences (r : Rule) : Prop :=
  ∀ l ∈ r.body, ∀ body, .neg body ∈ l.leaves → body.isSentence = true

theorem negationFault?_eq_none_iff {r : Rule} : r.negationFault? = none ↔ r.NegatesSentences := by
  unfold negationFault? NegatesSentences
  rw [Node.negationFaultIn?_eq_findSome?, List.findSome?_eq_none_iff]
  simp only [Node.negationFault?_eq_none_iff]

theorem negationFault?_code {r : Rule} {f : Fault} (h : r.negationFault? = some f) :
    f.code = "E120" := by
  unfold negationFault? at h
  rw [Node.negationFaultIn?_eq_findSome?] at h
  obtain ⟨l, -, hl⟩ := List.exists_of_findSome?_eq_some h
  exact Node.negationFault?_code hl

end Rule

/-! ## The conditions -/

/-- The facts among some items. -/
def factsOf (items : List Node) : List Node := items.filter Node.isRelation

/-- The rules among some items. -/
def rulesOf (items : List Node) : List Rule := items.filterMap Node.rule?

/-- What a description has to satisfy. -/
inductive Condition where
  | items
  | forms
  | arities
  | keywords
  | negations
  | safety
  | strata
  | places
  | growth

namespace Condition

/-- The place of a condition in the order of the checks. -/
def rank : Condition → Nat
  | items => 0
  | forms => 1
  | arities => 2
  | keywords => 3
  | negations => 4
  | safety => 5
  | strata => 6
  | places => 7
  | growth => 8

/-- The codes of the faults against a condition. -/
def codes : Condition → List String
  | items => ["E100"]
  | forms => ["E110", "E111", "E112"]
  | arities => ["E130", "E131"]
  | keywords => ["E140", "E141", "E142"]
  | negations => ["E120"]
  | safety => ["E150"]
  | strata => ["E160"]
  | places => ["E170", "E171", "E172", "E173", "E174"]
  | growth => ["E180"]

/-- What each condition asks of the items and the keywords. -/
def Holds (its : List Node) (ks : List Keyword) : Condition → Prop
  | items => ∀ n ∈ its, n.isItem = true
  | forms => ∀ n ∈ its, n.isRelation = true ∨ (∃ head body, n = .rule head body) →
      ∀ m, Node.OnWalk m n → ¬ m.IsEmptyForm
  | arities => ConsistentArities (factsOf its) (rulesOf its)
  | keywords => Keyword.Spelled (factsOf its) (rulesOf its) ks
  | negations => ∀ r ∈ rulesOf its, r.NegatesSentences
  | safety => ∀ r ∈ rulesOf its, r.Safe
  | strata => NoNegativeCycle (rulesOf its)
  | places => Keyword.Placed (factsOf its) (rulesOf its) ks
  | growth => ∀ r ∈ rulesOf its, ∀ head, r.head.name? = some head →
      r.Restrained (Reaches (rulesOf its) · head)

theorem rank_injective {c d : Condition} (h : c.rank = d.rank) : c = d := by
  cases c <;> cases d <;> first | rfl | cases h

end Condition

section Order

variable (items : List Node) (ks : List Keyword)

/-- All conditions before a place in the order hold. -/
def HoldBefore (n : Nat) : Prop := ∀ c : Condition, c.rank < n → c.Holds items ks

/-- A condition is broken, and none before it is. -/
def Condition.FirstBroken (c : Condition) : Prop := HoldBefore items ks c.rank ∧ ¬ c.Holds items ks

end Order

theorem HoldBefore.succ {items : List Node} {ks : List Keyword} {c : Condition}
    (h : HoldBefore items ks c.rank) (hc : c.Holds items ks) : HoldBefore items ks (c.rank + 1) := by
  intro d hd
  rcases Nat.lt_succ_iff_lt_or_eq.1 hd with hd | hd
  · exact h d hd
  · exact Condition.rank_injective hd ▸ hc

/-- A fault found by a check that decides a condition shows this condition broken. -/
theorem Condition.FirstBroken.of_some {items : List Node} {ks : List Keyword} {c : Condition}
    {found : Option Fault} {f : Fault} (hb : HoldBefore items ks c.rank)
    (hc : c.Holds items ks ↔ found = none) (hf : found = some f) : c.FirstBroken items ks := by
  refine ⟨hb, fun h => ?_⟩
  rw [hc.1 h] at hf
  cases hf

/-- Every rule among the items has a proposition, a relation or a function for its head. -/
def HeadsNamed (items : List Node) : Prop :=
  ∀ head body, .rule head body ∈ items → (∃ name, head = .prop name) ∨
    (∃ name args, head = .rel name args) ∨ ∃ name args, head = .fn name args

/-- A sentence of a description is one in shape too, unless it is a head. -/
theorem SentenceOf.isSentence_or_head {items : List Node} {s : Node}
    (hs : SentenceOf (factsOf items) (rulesOf items) s) :
    s.isSentence = true ∨ ∃ r ∈ rulesOf items, s = r.head := by
  rcases hs with hs | ⟨r, hr, rfl | ⟨negated, l, -, ho⟩⟩
  · have hrel := (List.mem_filter.1 hs).2
    left
    cases s <;> first | rfl | cases hrel
  · exact .inr ⟨r, hr, rfl⟩
  · exact .inl ho.isSentence

theorem HeadsNamed.reading?_ne_none {items : List Node} (h : HeadsNamed items) {s : Node}
    (hs : SentenceOf (factsOf items) (rulesOf items) s) : s.reading? ≠ none := by
  rcases hs.isSentence_or_head with hs | ⟨r, hr, rfl⟩
  · exact Node.reading?_ne_none hs
  · obtain ⟨n, hn, hr⟩ := List.mem_filterMap.1 hr
    cases n <;> cases hr
    exact Node.reading?_ne_none_iff.2 (h _ _ hn)

/-! ## Conditions and checks -/

section Checks

variable {items : List Node} {ks : List Keyword} {p : Program} {t : ArityTables} {g : Graph}

theorem ofItems_error {f : Fault} (h : Program.ofItems items = .error f) :
    f.code = "E100" ∧ ¬ ∀ n ∈ items, n.isItem = true := by
  unfold Program.ofItems at h
  split at h
  · rename_i n hn
    cases h
    refine ⟨rfl, fun hi => ?_⟩
    have hstray := List.find?_some hn
    rw [hi n (List.mem_of_find?_eq_some hn)] at hstray
    cases hstray
  · cases h

section Program

variable (hp : Program.ofItems items = .ok p)
include hp

theorem facts_ofItems : p.facts = factsOf items := (Program.ofItems_ok hp).2.1

theorem rules_ofItems : p.rules = rulesOf items := (Program.ofItems_ok hp).2.2.1

theorem forms_holds_iff : Condition.forms.Holds items ks ↔
    Node.emptyFormFault? (p.facts ++ p.rules.map Rule.toNode) = none := by
  rw [Node.emptyFormFault?_eq_none_iff, facts_ofItems hp, rules_ofItems hp]
  refine forall_congr' fun n => ?_
  -- facts and rules together are the items that the condition is about
  have hroot : n ∈ factsOf items ++ (rulesOf items).map Rule.toNode ↔
      n ∈ items ∧ (n.isRelation = true ∨ ∃ head body, n = .rule head body) := by
    unfold factsOf rulesOf
    rw [List.mem_append, List.mem_filter, and_or_left, List.mem_map]
    refine or_congr Iff.rfl ⟨?_, ?_⟩
    · rintro ⟨r, hr, rfl⟩
      obtain ⟨n, hn, hr⟩ := List.mem_filterMap.1 hr
      cases n <;> cases hr
      exact ⟨hn, _, _, rfl⟩
    · rintro ⟨hn, head, body, rfl⟩
      exact ⟨⟨head, body⟩, List.mem_filterMap.2 ⟨_, hn, rfl⟩, rfl⟩
  rw [hroot, and_imp]

theorem arities_holds_iff (hh : HeadsNamed items) : Condition.arities.Holds items ks ↔
    ∃ t, ArityTables.build p.facts p.rules = .ok t := by
  rw [facts_ofItems hp, rules_ofItems hp, ArityTables.build_isOk_iff fun s => hh.reading?_ne_none]
  rfl

theorem negations_holds_iff : Condition.negations.Holds items ks ↔
    p.rules.findSome? Rule.negationFault? = none := by
  rw [List.findSome?_eq_none_iff, rules_ofItems hp]
  simp only [Rule.negationFault?_eq_none_iff]
  rfl

theorem safety_holds_iff : Condition.safety.Holds items ks ↔
    p.rules.findSome? Rule.safetyFault? = none := by
  rw [List.findSome?_eq_none_iff, rules_ofItems hp]
  simp only [Rule.safetyFault?_eq_none_iff]
  rfl

theorem strata_holds_iff (hg : Graph.ofRules p.rules = .ok g) (names : List String) :
    Condition.strata.Holds items ks ↔ g.cycleFault? names = none := by
  rw [Graph.cycleFault?_eq_none_iff hg, rules_ofItems hp]
  rfl

section Tables

variable (ht : ArityTables.build p.facts p.rules = .ok t)
include ht

theorem keywords_holds_iff : Condition.keywords.Holds items ks ↔
    Keyword.arityFault? t.sentences t.functions ks = none := by
  rw [Keyword.arityFault?_eq_none_iff ht, facts_ofItems hp, rules_ofItems hp]
  rfl

theorem places_holds_iff (hg : Graph.ofRules p.rules = .ok g) : Condition.places.Holds items ks ↔
    (Keyword.headFault? g ks).or (Keyword.bodyFault? g ks) = none ∧
      (Keyword.turnFault? g t.sentences.names ks).or
        (Keyword.actionFault? g t.sentences.names ks) = none := by
  rw [Keyword.placing_eq_none_iff hg fun name => Keyword.mem_names_iff_occurs ht,
    facts_ofItems hp, rules_ofItems hp]
  rfl

theorem growth_holds_iff (hg : Graph.ofRules p.rules = .ok g) : Condition.growth.Holds items ks ↔
    Rule.growthFaultIn? (g.ancestors (.ofList t.sentences.names)) p.rules = .ok none := by
  have hnames : ∀ r ∈ p.rules, ∀ name args, r.UsedNear name args →
      name ∈ NameSet.ofList t.sentences.names := by
    intro r hr name args hu
    rw [NameSet.mem_ofList, Keyword.mem_names_iff_occurs ht]
    exact ⟨.rel name args, .inr ⟨r, hr, .inr ⟨false, hu.uses⟩⟩, rfl⟩
  rw [Rule.growthFaultIn?_eq_none_iff hg (ArityTables.head_named ht) hnames, rules_ofItems hp]
  rfl

end Tables

end Program

end Checks

/-! ## The verdict -/

section Verdict

variable {items : List Node} {ks : List Keyword} {p : Program} {t : ArityTables} {g : Graph}

theorem HoldBefore.zero : HoldBefore items ks 0 := fun c hc => absurd hc (Nat.not_lt_zero c.rank)

theorem holdBefore_forms (hp : Program.ofItems items = .ok p) :
    HoldBefore items ks Condition.forms.rank :=
  HoldBefore.zero.succ (c := .items) (Program.ofItems_ok hp).1

theorem holdBefore_arities (hp : Program.ofItems items = .ok p)
    (hf : Node.emptyFormFault? (p.facts ++ p.rules.map Rule.toNode) = none) :
    HoldBefore items ks Condition.arities.rank :=
  (holdBefore_forms hp).succ ((forms_holds_iff hp).2 hf)

/-- Rules of which tables are built have heads that can be read. -/
theorem HeadsNamed.of_build (hp : Program.ofItems items = .ok p)
    (ht : ArityTables.build p.facts p.rules = .ok t) : HeadsNamed items := by
  intro head body hr
  have hmem : ⟨head, body⟩ ∈ p.rules := by
    rw [rules_ofItems hp]
    exact List.mem_filterMap.2 ⟨_, hr, rfl⟩
  have hocc : head ∈ sentenceOccurrences p.facts p.rules :=
    mem_sentenceOccurrences.2 (.inr ⟨_, hmem, .inl rfl⟩)
  exact Node.reading?_ne_none_iff.1 ((ArityTables.build_ok ht).1 head hocc)

variable (hh : HeadsNamed items)
include hh

theorem holdBefore_keywords (hp : Program.ofItems items = .ok p)
    (hf : Node.emptyFormFault? (p.facts ++ p.rules.map Rule.toNode) = none)
    (ht : ArityTables.build p.facts p.rules = .ok t) :
    HoldBefore items ks Condition.keywords.rank :=
  (holdBefore_arities hp hf).succ ((arities_holds_iff hp hh).2 ⟨t, ht⟩)

theorem Tabled.holdBefore (h : Tabled items ks p t) : HoldBefore items ks Condition.negations.rank :=
  (holdBefore_keywords hh h.program h.forms h.tables).succ
    ((keywords_holds_iff h.program h.tables).2 h.keywords)

theorem holdBefore_safety (h : Tabled items ks p t)
    (hn : p.rules.findSome? Rule.negationFault? = none) : HoldBefore items ks Condition.safety.rank :=
  (h.holdBefore hh).succ ((negations_holds_iff h.program).2 hn)

theorem holdBefore_strata (h : Tabled items ks p t)
    (hn : p.rules.findSome? Rule.negationFault? = none)
    (hs : p.rules.findSome? Rule.safetyFault? = none) : HoldBefore items ks Condition.strata.rank :=
  (holdBefore_safety hh h hn).succ ((safety_holds_iff h.program).2 hs)

theorem Stratified.holdBefore (h : Stratified items ks p t g) :
    HoldBefore items ks Condition.places.rank :=
  (holdBefore_strata hh h.toTabled h.negations h.safety).succ
    ((strata_holds_iff h.program h.graph t.sentences.names).2 h.strata)

theorem holdBefore_growth (h : Stratified items ks p t g)
    (hp : (Keyword.headFault? g ks).or (Keyword.bodyFault? g ks) = none)
    (hd : (Keyword.turnFault? g t.sentences.names ks).or
      (Keyword.actionFault? g t.sentences.names ks) = none) :
    HoldBefore items ks Condition.growth.rank :=
  (h.holdBefore hh).succ ((places_holds_iff h.program h.tables h.graph).2 ⟨hp, hd⟩)

theorem Sound.holds (h : Sound items ks p t g) (c : Condition) : c.Holds items ks := by
  have hb := holdBefore_growth hh h.toStratified h.places h.dependence
  have hall := hb.succ ((growth_holds_iff h.program h.tables h.graph).2 h.growth)
  refine hall c ?_
  cases c <;> decide

/-- An analysis goes through all stages, or ends with a fault against the first broken
condition. -/
theorem Exit.verdict {run : Run (Program × List Warning)} (he : Exit items ks run) :
    (∃ p t g, Sound items ks p t g) ∨ ∃ (c : Condition) (f : Fault), c.FirstBroken items ks ∧
      run.outcome = .error (.fault f) ∧ f.code ∈ c.codes := by
  cases he with
  | sound h => exact .inl ⟨_, _, _, h⟩
  | @stray f hp =>
    obtain ⟨hc, hi⟩ := ofItems_error hp
    exact .inr ⟨.items, f, ⟨.zero, hi⟩, rfl, by simp [hc, Condition.codes]⟩
  | @emptyForm p f hp hf =>
    refine .inr ⟨.forms, f, .of_some (holdBefore_forms hp) (forms_holds_iff hp) hf, rfl, ?_⟩
    obtain ⟨v, -, hv⟩ := List.exists_of_findSome?_eq_some hf
    exact Node.emptyForm?_code hv
  | @malformed p m hp hf hb =>
    -- a sentence without a name or an arity could only be a head
    obtain ⟨hm, hn⟩ := ArityTables.build_malformed hb
    rw [mem_sentenceOccurrences, facts_ofItems hp, rules_ofItems hp] at hm
    exact absurd hn (hh.reading?_ne_none hm)
  | @arity p f hp hf hb =>
    refine .inr ⟨.arities, f, ⟨holdBefore_arities hp hf, fun h => ?_⟩, rfl, ?_⟩
    · obtain ⟨t, ht⟩ := (arities_holds_iff hp hh).1 h
      rw [ht] at hb
      cases hb
    · exact (ArityTables.build_fault hb).1
  | @keyword p t f hp hf ht hk =>
    refine .inr ⟨.keywords, f, .of_some (holdBefore_keywords hh hp hf ht)
      (keywords_holds_iff hp ht) hk, rfl, ?_⟩
    exact Keyword.arityFault?_code hk
  | @negation p t f h hn =>
    have hb := h.holdBefore hh
    refine .inr ⟨.negations, f, .of_some hb (negations_holds_iff h.program) hn, rfl, ?_⟩
    obtain ⟨r, -, hr⟩ := List.exists_of_findSome?_eq_some hn
    simp [Rule.negationFault?_code hr, Condition.codes]
  | @unbound p t f h hn hs =>
    have hb := holdBefore_safety hh h hn
    refine .inr ⟨.safety, f, .of_some hb (safety_holds_iff h.program) hs, rfl, ?_⟩
    obtain ⟨r, -, hr⟩ := List.exists_of_findSome?_eq_some hs
    obtain ⟨x, rfl, -⟩ := Rule.safetyFault?_eq_some hr
    simp [Fault.code, Condition.codes]
  | @cycle p t g f h hn hs hg hc =>
    have hb := holdBefore_strata hh h hn hs
    refine .inr ⟨.strata, f, .of_some hb (strata_holds_iff h.program hg _) hc, rfl, ?_⟩
    obtain ⟨a, b, rfl⟩ := Graph.cycleFault?_eq_some hc
    simp [Fault.code, Condition.codes]
  | @misplaced p t g f h hf =>
    refine .inr ⟨.places, f, ⟨h.holdBefore hh, fun hc => ?_⟩, rfl, ?_⟩
    · rw [((places_holds_iff h.program h.tables h.graph).1 hc).1] at hf
      cases hf
    · exact Keyword.placing_code g t.sentences.names ks (.inl hf)
  | @dependent p t g f h hp hf =>
    refine .inr ⟨.places, f, ⟨h.holdBefore hh, fun hc => ?_⟩, rfl, ?_⟩
    · rw [((places_holds_iff h.program h.tables h.graph).1 hc).2] at hf
      cases hf
    · exact Keyword.placing_code g t.sentences.names ks (.inr hf)
  | @growth p t g f h hp hd hf =>
    have hb := holdBefore_growth hh h hp hd
    refine .inr ⟨.growth, f, ⟨hb, fun hc => ?_⟩, rfl, ?_⟩
    · rw [(growth_holds_iff h.program h.tables h.graph).1 hc] at hf
      cases hf
    · obtain ⟨r, -, head, u, -, rfl, -⟩ :=
        Rule.growthFaultIn?_eq_some (ArityTables.head_named h.tables) hf
      simp [Fault.code, Condition.codes]

/-- A description that is not accepted is refused for a fault against its first broken condition. -/
theorem exists_firstBroken {e : Failure} (he : (validate items ks).outcome = .error e) :
    ∃ (c : Condition) (f : Fault), c.FirstBroken items ks ∧ e = .fault f ∧ f.code ∈ c.codes := by
  rcases (analyse_exit items ks).verdict hh with ⟨p, t, g, hs⟩ | ⟨c, f, hb, hf, hcode⟩
  · obtain ⟨ws, hws⟩ := validate_isOk_iff.2 ⟨p, t, g, hs⟩
    cases he.symm.trans hws
  · cases he.symm.trans (validate_outcome_of_error hf)
    exact ⟨c, f, hb, rfl, hcode⟩

theorem isOk_of_holds (h : ∀ c : Condition, c.Holds items ks) :
    ∃ ws, (validate items ks).outcome = .ok ws := by
  cases hv : (validate items ks).outcome with
  | ok ws => exact ⟨ws, rfl⟩
  | error e =>
    obtain ⟨c, f, hb, -⟩ := exists_firstBroken hh hv
    exact absurd (h c) hb.2

end Verdict

/-- A description is accepted exactly if it meets all conditions, and otherwise refused for a fault
against the first that it breaks. -/
theorem validate_isOk_iff_conditions (items : List Node) (ks : List Keyword)
    (hh : HeadsNamed items) :
    ((∃ ws, (validate items ks).outcome = .ok ws) ↔ ∀ c : Condition, c.Holds items ks) ∧
      ((¬ ∀ c : Condition, c.Holds items ks) → ∃ (c : Condition) (f : Fault),
        c.FirstBroken items ks ∧ (validate items ks).outcome = .error (.fault f) ∧
          f.code ∈ c.codes) := by
  rcases (analyse_exit items ks).verdict hh with ⟨p, t, g, h⟩ | ⟨c, f, hb, hf, hcode⟩
  · have hall := h.holds hh
    exact ⟨⟨fun _ => hall, fun _ => validate_isOk_iff.2 ⟨p, t, g, h⟩⟩, fun hn => absurd hall hn⟩
  · have hv := validate_outcome_of_error hf
    refine ⟨⟨?_, fun hall => absurd (hall c) hb.2⟩, fun _ => ⟨c, f, hb, hv, hcode⟩⟩
    rintro ⟨ws, hok⟩
    rw [hv] at hok
    cases hok

/-- A game in which a player wins unless it is open. -/
def closingGame : List Node :=
  [.rel "role" [.const "x"], .rule (.prop "open") [.disj [.rel "role" [.var "?r"]]],
    .rule (.rel "wins" [.var "?r"]) [.rel "role" [.var "?r"], .neg (.prop "open")]]

/-- A game with an unbound variable and a negative cycle. -/
def loopingGame : List Node :=
  [.rel "role" [.const "x"],
    .rule (.rel "wins" [.var "?r"]) [.prop "open", .neg (.rel "wins" [.var "?r"])]]

/-- One game meets all conditions; the other is refused for the variable, not for the cycle. -/
theorem conditions_of_two_games :
    (∀ c : Condition, c.Holds closingGame [⟨"role", 1, true, "", [.factsOnly]⟩]) ∧
      Condition.safety.FirstBroken loopingGame [⟨"role", 1, true, "", [.factsOnly]⟩] := by
  have hclosing : HeadsNamed closingGame := by
    intro head body h
    simp only [closingGame, List.mem_cons, reduceCtorEq, Node.rule.injEq, List.not_mem_nil,
      false_or, or_false] at h
    rcases h with ⟨rfl, -⟩ | ⟨rfl, -⟩
    · exact .inl ⟨_, rfl⟩
    · exact .inr (.inl ⟨_, _, rfl⟩)
  have hlooping : HeadsNamed loopingGame := by
    intro head body h
    simp only [loopingGame, List.mem_cons, reduceCtorEq, Node.rule.injEq, List.not_mem_nil,
      false_or, or_false] at h
    exact .inr (.inl ⟨_, _, h.1⟩)
  have hv : (validate loopingGame [⟨"role", 1, true, "", [.factsOnly]⟩]).outcome =
      .error (.fault (.unboundVariable ⟨.rel "wins" [.var "?r"],
        [.prop "open", .neg (.rel "wins" [.var "?r"])]⟩ "?r")) := by
    decide +kernel
  obtain ⟨hiff, hfirst⟩ :=
    validate_isOk_iff_conditions loopingGame [⟨"role", 1, true, "", [.factsOnly]⟩] hlooping
  constructor
  · exact (validate_isOk_iff_conditions _ _ hclosing).1.1 ⟨[], by decide +kernel⟩
  · obtain ⟨c, f, hc, hf, hcode⟩ := hfirst fun hall => by
      obtain ⟨ws, hws⟩ := hiff.2 hall
      rw [hv] at hws
      cases hws
    rw [hv] at hf
    cases hf
    cases c <;> first | exact hc | exact absurd hcode (by decide)

end GameRules
