/-
The check of recursive uses, exactly. It reports the first term that may grow: of the first conjunct
that has one, and there of the first disjunct that has one, the first such argument. Which uses count
as recursive is looked up in one direction only; since every use is an edge from the head, the names
that count are those in one recursion with the head. A use below a negation is never one of them once
the rules are stratified.
-/
import GameRules.Proofs.First
import GameRules.Proofs.Graph.Strata

namespace GameRules.Rule

/-! ## Terms that may grow -/

/-- Going by a table of ancestors, a name counts as recursive if its entry has the head; a name
without an entry does not. -/
def CountsAsRecursive (ancestors : List (String × NameSet)) (head name : String) : Prop :=
  ∃ above, ancestors.lookup name = some above ∧ head ∈ above

theorem isCyclic_iff {ancestors : List (String × NameSet)} {head name : String} :
    isCyclic ancestors head name = true ↔ CountsAsRecursive ancestors head name := by
  unfold isCyclic CountsAsRecursive
  cases ancestors.lookup name <;> simp

section Reports

variable (recursive : String → Prop) (r : Rule)

/-- A term that is neither ground nor passed on. -/
def MayGrow (t : Node) : Prop := t.isGround = false ∧ ¬ r.MayPass recursive t

/-- Some recursive use that stands near has an argument that may grow. -/
def LetsGrow : Prop :=
  ∃ name args, r.UsedNear name args ∧ recursive name ∧ ∃ t ∈ args, r.MayGrow recursive t

/-- A relation that is used recursively reports its first argument that may grow. -/
def RelationReports (l t : Node) : Prop :=
  ∃ name args, l = .rel name args ∧ recursive name ∧ FirstIn (r.MayGrow recursive) args t

/-- A conjunct that is a relation reports as such; of a disjunction the first disjunct that is a
relation with something to report does. -/
def ConjunctReports (l t : Node) : Prop :=
  r.RelationReports recursive l t ∨ ∃ ds, l = .disj ds ∧ FirstOf (r.RelationReports recursive) ds t

/-- A rule reports what the first of its conjuncts with something to report reports. -/
def Reports (t : Node) : Prop := FirstOf (r.ConjunctReports recursive) r.body t

end Reports

theorem letsGrow_iff {recursive : String → Prop} {r : Rule} :
    r.LetsGrow recursive ↔ ¬ r.Restrained recursive := by
  unfold LetsGrow Restrained Restrains MayGrow
  simp only [not_forall, not_or, Bool.not_eq_true, exists_prop]

/-! ## What the search finds -/

section Search

variable {test : String → Bool} {r : Rule} {t : Node}

theorem mayGrow_iff : mayGrow test r t = true ↔ r.MayGrow (test · = true) t := by
  unfold mayGrow MayGrow
  rw [← any_passedTerms]
  simp

theorem argsWhere_eq_flatMap (test : String → Bool) (ls : List Node) :
    argsWhere test ls = ls.flatMap fun l => argsWhere test [l] := by
  simp [argsWhere]

/-- In a single literal the search finds what it reports as a relation. -/
theorem find?_argsWhere_singleton {l : Node} :
    (argsWhere test [l]).find? (mayGrow test r) = some t ↔ r.RelationReports (test · = true) l t := by
  unfold RelationReports
  cases l with
  | rel name args =>
    by_cases htest : test name = true
    · simp [argsWhere, htest, find?_eq_some_iff_firstIn, mayGrow_iff]
    · simp [argsWhere, htest]
  | _ => simp [argsWhere]

/-- Among some literals it finds what the first relation with something to report reports. -/
theorem find?_argsWhere {ls : List Node} :
    (argsWhere test ls).find? (mayGrow test r) = some t ↔
      FirstOf (r.RelationReports (test · = true)) ls t := by
  rw [argsWhere_eq_flatMap, List.find?_flatMap, findSome?_eq_some_iff_firstOf]
  simp only [find?_argsWhere_singleton]

theorem find?_conjunctArgs {l : Node} :
    (conjunctArgs test l).find? (mayGrow test r) = some t ↔
      r.ConjunctReports (test · = true) l t := by
  unfold ConjunctReports
  cases l with
  | disj ds => simp [conjunctArgs, find?_argsWhere, RelationReports]
  | _ => simp [conjunctArgs, find?_argsWhere_singleton]

theorem grown?_eq_some_iff : grown? test r = some t ↔ r.Reports (test · = true) t := by
  unfold grown? recursiveArgs
  rw [List.find?_flatMap, findSome?_eq_some_iff_firstOf]
  simp only [find?_conjunctArgs]
  rfl

end Search

/-! ## Recursive names -/

section Rules

variable {rules : List Rule} {g : Graph} (hg : Graph.ofRules rules = .ok g) {r : Rule}
  (hr : r ∈ rules) {head : String} (hn : r.head.name? = some head)
include hr hn

/-- The head of a rule depends on whatever the body uses. -/
theorem Uses.depends {s : Node} {negated : Bool} {name : String} (hu : r.Uses s negated)
    (hs : s.name? = some name) : Depends rules head name :=
  ⟨r, hr, negated, hn, s, hu, hs⟩

include hg

/-- The names that count as recursive in a body are those in one recursion with the head. -/
theorem countsAsRecursive_iff {names : NameSet} {name : String} {args : List Node} {negated : Bool}
    (hnames : ∀ b, (∃ a, Depends rules a b) → b ∈ names) (hu : r.Uses (.rel name args) negated) :
    CountsAsRecursive (g.ancestors names) head name ↔
      Reaches rules name head ∧ Reaches rules head name := by
  have hdepends : Depends rules head name := Uses.depends hr hn hu rfl
  have hmem : name ∈ names := hnames name ⟨head, hdepends⟩
  rw [← isCyclic_iff, isCyclic_ancestors, Graph.path_ofRules_iff hg]
  constructor
  · rintro ⟨-, h⟩
    exact ⟨h, .single hdepends⟩
  · rintro ⟨h, -⟩
    exact ⟨hmem, h⟩

/-- Once the rules are stratified, no use below a negation is in one recursion with the head. -/
theorem not_reaches_of_negated {given : List String} {g' : Graph}
    (hstrata : (stratifiedGraph rules given).outcome = .ok g') {s : Node} {name : String}
    (hu : r.Uses s true) (hs : s.name? = some name) : ¬ Reaches rules name head := by
  have hcycle : NoNegativeCycle rules := by
    rw [← Graph.cycleFault?_eq_none_iff hg]
    unfold stratifiedGraph Graph.checkStratified at hstrata
    simp only [hg, Run.lift_malformed, Except.mapError, Run.ok_bind] at hstrata
    cases hc : g.cycleFault? given with
    | none => rfl
    | some f =>
      rw [hc] at hstrata
      cases hstrata
  exact hcycle head name ⟨r, hr, hn, s, hu, hs⟩

end Rules

/-- The check of recursive uses, exactly. For a rule whose head has a name and any table of ancestors it
finds a fault exactly if some recursive use that stands near has an argument that may grow, and it
reports the first one, by conjunct, then by disjunct, then by argument. If the ancestors are those of
the rules, the uses that count as recursive are those in one recursion with the head; in stratified
rules no use below a negation is. -/
theorem growthFault?_reports_first :
    (∀ (ancestors : List (String × NameSet)) (r : Rule) (head : String),
      r.head.name? = some head →
      (growthFault? ancestors r = .ok none ↔ ¬ r.LetsGrow (CountsAsRecursive ancestors head)) ∧
      ((∃ f, growthFault? ancestors r = .ok (some f) ∧ f.code = "E180") ↔
        r.LetsGrow (CountsAsRecursive ancestors head)) ∧
      ∀ f, growthFault? ancestors r = .ok (some f) ↔
        ∃ t, r.Reports (CountsAsRecursive ancestors head) t ∧ f = .termGrowth r t) ∧
    ∀ (rules : List Rule) (g : Graph) (names : NameSet), Graph.ofRules rules = .ok g →
      (∀ b, Defines rules b ∨ (∃ a, Depends rules a b) → b ∈ names) →
      ∀ r ∈ rules, ∀ head, r.head.name? = some head →
        (∀ name args negated, r.Uses (.rel name args) negated →
          (CountsAsRecursive (g.ancestors names) head name ↔
            Reaches rules name head ∧ Reaches rules head name)) ∧
        ∀ given, (stratifiedGraph rules given).outcome = .ok g → ∀ s name, r.Uses s true →
          s.name? = some name → ¬ (Reaches rules name head ∧ Reaches rules head name) := by
  refine ⟨fun ancestors r head hn => ?_, fun rules g names hg hnames r hr head hn => ⟨?_, ?_⟩⟩
  · have hrecursive : (isCyclic ancestors head · = true) = CountsAsRecursive ancestors head := by
      funext name
      exact propext isCyclic_iff
    have hnone : grown? (isCyclic ancestors head) r = none ↔
        r.Restrained (CountsAsRecursive ancestors head) := by
      rw [← hrecursive]
      exact grown?_eq_none_iff
    have hsome : ∀ t, grown? (isCyclic ancestors head) r = some t ↔
        r.Reports (CountsAsRecursive ancestors head) t := by
      intro t
      rw [← hrecursive]
      exact grown?_eq_some_iff
    rw [growthFault?_eq hn, letsGrow_iff, ← hnone, not_not]
    refine ⟨by simp, ?_, fun f => ?_⟩
    · cases grown? (isCyclic ancestors head) r <;> simp [Fault.code]
    · rw [Except.ok.injEq, Option.map_eq_some_iff]
      simp only [hsome, eq_comm]
  · intro name args negated hu
    exact countsAsRecursive_iff hg hr hn (fun b hb => hnames b (.inr hb)) hu
  · rintro given hstrata s name hu hs ⟨hback, -⟩
    exact not_reaches_of_negated hg hr hn hstrata hu hs hback

/-- A walk goes on from a place by a step, if it is not done. -/
def walkRule : Rule :=
  ⟨.rel "walk" [.var "?x", .fn "next" [.var "?n"]], [.rel "place" [.var "?x"],
    .disj [.prop "open", .rel "step" [.var "?x", .var "?n"]], .neg (.prop "done")]⟩

/-- Every walk is a step. -/
def stepRule : Rule :=
  ⟨.rel "step" [.var "?x", .var "?n"], [.rel "walk" [.var "?x", .var "?n"]]⟩

def walkRules : List Rule := [walkRule, stepRule]

def walkGraph : Graph :=
  ⟨.ofList ["walk", "step"], [("walk", "place"), ("walk", "open"), ("walk", "step"), ("walk", "done"),
    ("step", "walk")], [("walk", "done")]⟩

def walkNames : NameSet := .ofList ["done", "open", "place", "step", "walk"]

/-- The place of a walk is passed on and its number is reported; a step is in the recursion, its end is
not. -/
theorem walkRules_report :
    walkRule.Reports (CountsAsRecursive (walkGraph.ancestors walkNames) "walk") (.var "?n") ∧
      (Reaches walkRules "step" "walk" ∧ Reaches walkRules "walk" "step") ∧
      ¬ (Reaches walkRules "done" "walk" ∧ Reaches walkRules "walk" "done") := by
  obtain ⟨hcheck, hnames⟩ := growthFault?_reports_first
  have hg : Graph.ofRules walkRules = .ok walkGraph := by decide +kernel
  have hstrata : (stratifiedGraph walkRules []).outcome = .ok walkGraph := by decide +kernel
  have hall : ∀ b, Defines walkRules b ∨ (∃ a, Depends walkRules a b) → b ∈ walkNames := by
    intro b hb
    rw [← Graph.mem_heads_ofRules hg, ← Graph.mem_targets_ofRules hg] at hb
    have hheads : ∀ x ∈ walkGraph.heads.toList, x ∈ walkNames.toList := by decide +kernel
    have htargets : ∀ x ∈ walkGraph.targets.toList, x ∈ walkNames.toList := by decide +kernel
    exact hb.elim (hheads b) (htargets b)
  have hfault : growthFault? (walkGraph.ancestors walkNames) walkRule =
      .ok (some (.termGrowth walkRule (.var "?n"))) := by
    decide +kernel
  have hmem : walkRule ∈ walkRules := List.mem_cons_self
  obtain ⟨hrecursive, hnegated⟩ := hnames walkRules walkGraph walkNames hg hall walkRule hmem "walk" rfl
  refine ⟨?_, ?_, ?_⟩
  · obtain ⟨t, ht, hf⟩ := ((hcheck _ _ "walk" rfl).2.2 _).1 hfault
    cases hf
    exact ht
  · refine (hrecursive "step" [.var "?x", .var "?n"] false ?_).1 (isCyclic_iff.1 (by decide +kernel))
    exact ⟨_, List.mem_cons_of_mem _ List.mem_cons_self, .disj (by simp) (.self rfl)⟩
  · refine hnegated [] hstrata (.prop "done") "done" ?_ rfl
    exact ⟨_, by simp [walkRule], .neg (.self rfl)⟩

end GameRules.Rule
