/-
The restriction on recursive uses, said of a rule itself. A use that comes back to the head, in the
body or one disjunction deep, passes on only terms that are ground, or that the head or a relation
outside the recursion has as an argument. The check refuses a rule exactly if some use does not.
-/
import GameRules.Graph.Closure
import GameRules.Proofs.Graph.Dependency
import GameRules.Rule.Growth

namespace GameRules.Rule

/-! ## The restriction -/

/-- A relation stands in a body as a conjunct or as a direct disjunct of a conjunct. -/
def UsedNear (r : Rule) (name : String) (args : List Node) : Prop :=
  .rel name args ∈ r.body ∨ ∃ ds, .disj ds ∈ r.body ∧ .rel name args ∈ ds

theorem UsedNear.uses {r : Rule} {name : String} {args : List Node} (h : r.UsedNear name args) :
    r.Uses (.rel name args) false := by
  rcases h with hl | ⟨ds, hl, hd⟩
  · exact ⟨_, hl, .self rfl⟩
  · exact ⟨_, hl, .disj hd (.self rfl)⟩

/-- A term may be passed on by a recursive use: it is an argument of the head, or of a conjunct
relation whose name is outside the recursion. -/
def MayPass (recursive : String → Prop) (r : Rule) (t : Node) : Prop :=
  (∃ name args, r.head = .rel name args ∧ ∃ u ∈ args, t.same u = true) ∨
    ∃ name args, .rel name args ∈ r.body ∧ ¬ recursive name ∧ ∃ u ∈ args, t.same u = true

/-- The arguments of a use cannot grow from one round of a recursion to the next. -/
def Restrains (recursive : String → Prop) (r : Rule) (args : List Node) : Prop :=
  ∀ t ∈ args, t.isGround = true ∨ r.MayPass recursive t

/-- Every recursive use that stands near passes on only what may be passed on. -/
def Restrained (recursive : String → Prop) (r : Rule) : Prop :=
  ∀ name args, r.UsedNear name args → recursive name → r.Restrains recursive args

/-! ## The check of one rule -/

theorem mem_argsWhere {test : String → Bool} {ls : List Node} {t : Node} :
    t ∈ argsWhere test ls ↔ ∃ name args, .rel name args ∈ ls ∧ test name = true ∧ t ∈ args := by
  unfold argsWhere
  rw [List.mem_flatMap]
  constructor
  · rintro ⟨l, hl, ht⟩
    cases l with
    | rel name args =>
      simp only at ht
      split at ht
      · rename_i htest
        exact ⟨name, args, hl, htest, ht⟩
      · cases ht
    | _ => cases ht
  · rintro ⟨name, args, hl, htest, ht⟩
    refine ⟨_, hl, ?_⟩
    simp only [htest, if_true]
    exact ht

theorem mem_recursiveArgs {test : String → Bool} {r : Rule} {t : Node} :
    t ∈ recursiveArgs test r.body ↔
      ∃ name args, r.UsedNear name args ∧ test name = true ∧ t ∈ args := by
  unfold recursiveArgs UsedNear
  rw [List.mem_flatMap]
  constructor
  · rintro ⟨l, hl, ht⟩
    cases l with
    | disj ds =>
      obtain ⟨name, args, hd, htest, ht⟩ := mem_argsWhere.1 ht
      exact ⟨name, args, .inr ⟨ds, hl, hd⟩, htest, ht⟩
    | _ =>
      obtain ⟨name, args, hd, htest, ht⟩ := mem_argsWhere.1 ht
      exact ⟨name, args, .inl (List.mem_singleton.1 hd ▸ hl), htest, ht⟩
  · rintro ⟨name, args, hl | ⟨ds, hl, hd⟩, htest, ht⟩
    · exact ⟨_, hl, mem_argsWhere.2 ⟨name, args, by simp, htest, ht⟩⟩
    · exact ⟨_, hl, mem_argsWhere.2 ⟨name, args, hd, htest, ht⟩⟩

theorem any_passedTerms {test : String → Bool} {r : Rule} {t : Node} :
    (passedTerms test r).any t.same = true ↔ r.MayPass (test · = true) t := by
  unfold passedTerms MayPass
  rw [List.any_append, Bool.or_eq_true, List.any_eq_true, List.any_eq_true]
  refine or_congr ?_ ?_
  · cases r.head <;> simp [Node.sentenceArgs]
  · simp only [mem_argsWhere, Bool.not_eq_true', Bool.not_eq_true]
    constructor
    · rintro ⟨u, ⟨name, args, hl, htest, hu⟩, ht⟩
      exact ⟨name, args, hl, htest, u, hu, ht⟩
    · rintro ⟨name, args, hl, htest, u, hu, ht⟩
      exact ⟨u, ⟨name, args, hl, htest, hu⟩, ht⟩

theorem growthFault?_eq {ancestors : List (String × NameSet)} {r : Rule} {head : String}
    (hn : r.head.name? = some head) :
    growthFault? ancestors r = .ok ((grown? (isCyclic ancestors head) r).map (.termGrowth r)) := by
  unfold growthFault? Node.getName
  rw [hn]
  rfl

theorem grown?_eq_none_iff {test : String → Bool} {r : Rule} :
    grown? test r = none ↔ r.Restrained (test · = true) := by
  unfold grown? mayGrow
  rw [List.find?_eq_none]
  simp only [mem_recursiveArgs, Bool.and_eq_true, Bool.not_eq_true', not_and, Bool.not_eq_false]
  constructor
  · intro h name args hu htest t ht
    cases hg : t.isGround with
    | true => exact .inl rfl
    | false => exact .inr (any_passedTerms.1 (h t ⟨name, args, hu, htest, ht⟩ hg))
  · rintro h t ⟨name, args, hu, htest, ht⟩ hg
    rcases h name args hu htest t ht with hg' | hp
    · rw [hg] at hg'
      cases hg'
    · exact any_passedTerms.2 hp

/-! ## The check of all rules -/

/-- Going by the ancestors of some names, a name counts as recursive if it is among these names and
a path leads from it to the head. -/
theorem isCyclic_ancestors {g : Graph} {names : NameSet} {head name : String} :
    isCyclic (g.ancestors names) head name = true ↔ name ∈ names ∧ Path g.edges name head := by
  unfold isCyclic
  rw [Graph.lookup_ancestors]
  by_cases hn : name ∈ names
  · rw [if_pos hn]
    exact decide_eq_true_iff.trans Graph.mem_dependencies_beq
  · rw [if_neg hn]
    simp [hn]

section All

variable {ancestors : List (String × NameSet)} {rules : List Rule}

theorem growthFaultIn?_isOk (ancestors : List (String × NameSet))
    (hheads : ∀ r ∈ rules, r.head.name? ≠ none) :
    ∃ f?, growthFaultIn? ancestors rules = .ok f? := by
  unfold growthFaultIn?
  induction rules with
  | nil => exact ⟨none, rfl⟩
  | cons r rules ih =>
    obtain ⟨head, hn⟩ := Option.ne_none_iff_exists'.1 (hheads r (by simp))
    obtain ⟨f?, h⟩ := ih fun r hr => hheads r (by simp [hr])
    rw [List.findSomeM?_cons, growthFault?_eq hn]
    cases grown? (isCyclic ancestors head) r with
    | none => exact ⟨f?, h⟩
    | some t => exact ⟨some (.termGrowth r t), rfl⟩

theorem growthFaultIn?_eq_none {r : Rule} {head : String}
    (h : growthFaultIn? ancestors rules = .ok none) (hr : r ∈ rules) (hn : r.head.name? = some head) :
    r.Restrained (isCyclic ancestors head · = true) := by
  unfold growthFaultIn? at h
  induction rules with
  | nil => cases hr
  | cons r' rules ih =>
    rw [List.findSomeM?_cons] at h
    cases hg : growthFault? ancestors r' with
    | error m =>
      rw [hg] at h
      cases h
    | ok f? =>
      rw [hg] at h
      cases f? with
      | some f => cases h
      | none =>
        rcases List.mem_cons.1 hr with rfl | hr
        · rw [growthFault?_eq hn, Except.ok.injEq, Option.map_eq_none_iff] at hg
          exact grown?_eq_none_iff.1 hg
        · exact ih h hr

theorem growthFaultIn?_eq_some {f : Fault} (hheads : ∀ r ∈ rules, r.head.name? ≠ none)
    (h : growthFaultIn? ancestors rules = .ok (some f)) :
    ∃ r ∈ rules, ∃ head t, r.head.name? = some head ∧ f = .termGrowth r t ∧
      ¬ r.Restrained (isCyclic ancestors head · = true) := by
  unfold growthFaultIn? at h
  induction rules with
  | nil => cases h
  | cons r rules ih =>
    obtain ⟨head, hn⟩ := Option.ne_none_iff_exists'.1 (hheads r (by simp))
    rw [List.findSomeM?_cons, growthFault?_eq hn] at h
    cases hg : grown? (isCyclic ancestors head) r with
    | none =>
      rw [hg] at h
      obtain ⟨r', hr', h⟩ := ih (fun r hr => hheads r (by simp [hr])) h
      exact ⟨r', List.mem_cons_of_mem _ hr', h⟩
    | some t =>
      rw [hg] at h
      cases h
      refine ⟨r, by simp, head, t, hn, rfl, fun hR => ?_⟩
      rw [grown?_eq_none_iff.2 hR] at hg
      cases hg

end All

/-! ## What the check looks up -/

theorem argsWhere_congr {p q : String → Bool} {ls : List Node}
    (h : ∀ name args, .rel name args ∈ ls → p name = q name) : argsWhere p ls = argsWhere q ls := by
  unfold argsWhere
  refine List.flatMap_congr fun l hl => ?_
  cases l with
  | rel name args => simp only [h name args hl]
  | _ => rfl

/-- The term that is reported depends only on the names of relations that stand near. -/
theorem grown?_congr {p q : String → Bool} {r : Rule}
    (h : ∀ name args, r.UsedNear name args → p name = q name) : grown? p r = grown? q r := by
  have hpassed : passedTerms p r = passedTerms q r := by
    unfold passedTerms
    rw [argsWhere_congr (q := (!q ·)) fun name args hl => congrArg _ (h name args (.inl hl))]
  have hrecursive : recursiveArgs p r.body = recursiveArgs q r.body := by
    unfold recursiveArgs
    refine List.flatMap_congr fun l hl => ?_
    cases l with
    | disj ds => exact argsWhere_congr fun name args hd => h name args (.inr ⟨ds, hl, hd⟩)
    | _ => exact argsWhere_congr fun name args hd => h name args (.inl (List.mem_singleton.1 hd ▸ hl))
  unfold grown? mayGrow
  rw [hpassed, hrecursive]

theorem growthFaultIn?_congr {ancestors ancestors' : List (String × NameSet)} {rules : List Rule}
    (h : ∀ r ∈ rules, ∀ name args, r.UsedNear name args →
      ancestors.lookup name = ancestors'.lookup name) :
    growthFaultIn? ancestors rules = growthFaultIn? ancestors' rules := by
  have hrule : ∀ r ∈ rules, growthFault? ancestors r = growthFault? ancestors' r := by
    intro r hr
    cases hn : r.head.name? with
    | none =>
      unfold growthFault? Node.getName
      rw [hn]
      rfl
    | some head =>
      rw [growthFault?_eq hn, growthFault?_eq hn, grown?_congr fun name args hu => ?_]
      unfold isCyclic
      rw [h r hr name args hu]
  unfold growthFaultIn?
  induction rules with
  | nil => rfl
  | cons r rules ih =>
    rw [List.findSomeM?_cons, List.findSomeM?_cons, hrule r (by simp),
      ih (fun r hr => h r (by simp [hr])) fun r hr => hrule r (by simp [hr])]

/-! ## The check of a program -/

/-- Only the names of relations that stand near decide whether a rule is restrained. -/
theorem restrained_congr {P Q : String → Prop} {r : Rule}
    (h : ∀ name args, r.UsedNear name args → (P name ↔ Q name)) :
    r.Restrained P ↔ r.Restrained Q := by
  -- conjuncts are near, so both readings leave the same relations outside the recursion
  have hpass : ∀ t, r.MayPass P t ↔ r.MayPass Q t := by
    intro t
    refine or_congr Iff.rfl ⟨?_, ?_⟩
    · rintro ⟨name, args, hl, hP, hu⟩
      exact ⟨name, args, hl, fun hQ => hP ((h name args (.inl hl)).2 hQ), hu⟩
    · rintro ⟨name, args, hl, hQ, hu⟩
      exact ⟨name, args, hl, fun hP => hQ ((h name args (.inl hl)).1 hP), hu⟩
  simp only [Restrained, Restrains, hpass]
  constructor
  · intro hr name args hu hQ
    exact hr name args hu ((h name args hu).2 hQ)
  · intro hr name args hu hP
    exact hr name args hu ((h name args hu).1 hP)

/-- The check passes exactly if every rule is restrained, where a name is recursive for a rule if
it comes to depend on the head. -/
theorem growthFaultIn?_eq_none_iff {rules : List Rule} {g : Graph} {names : NameSet}
    (hg : Graph.ofRules rules = .ok g) (hheads : ∀ r ∈ rules, r.head.name? ≠ none)
    (hnames : ∀ r ∈ rules, ∀ name args, r.UsedNear name args → name ∈ names) :
    growthFaultIn? (g.ancestors names) rules = .ok none ↔
      ∀ r ∈ rules, ∀ head, r.head.name? = some head → r.Restrained (Reaches rules · head) := by
  have hcyclic : ∀ r ∈ rules, ∀ head, r.Restrained (isCyclic (g.ancestors names) head · = true) ↔
      r.Restrained (Reaches rules · head) := by
    refine fun r hr head => restrained_congr fun name args hu => ?_
    rw [isCyclic_ancestors, Graph.path_ofRules_iff hg]
    exact and_iff_right (hnames r hr name args hu)
  constructor
  · intro h r hr head hn
    exact (hcyclic r hr head).1 (growthFaultIn?_eq_none h hr hn)
  · intro h
    obtain ⟨_ | f, hf⟩ := growthFaultIn?_isOk (g.ancestors names) hheads
    · exact hf
    · obtain ⟨r, hr, head, t, hn, -, hR⟩ := growthFaultIn?_eq_some hheads hf
      exact absurd ((hcyclic r hr head).2 (h r hr head hn)) hR

end GameRules.Rule
