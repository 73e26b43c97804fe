/-
Safe rules. What a body binds and what it needs bound are said here literal by literal, and the
check refuses a rule exactly if it needs a variable that it does not bind. Then disjunctions are
expanded: a rule whose disjunctions all have branches is safe exactly if every rule is that arises
from it by choosing one leaf of each literal. The choice that refutes safety takes the leaf that
needs the variable, which never binds it, and elsewhere leaves that do not bind it.
-/
import GameRules.Proofs.Node.Occurrence
import GameRules.Rule.Safety
import Mathlib.Data.List.Forall2
import Mathlib.Tactic.Choose

namespace GameRules

namespace Node

/-! ## Variables that literals bind and need -/

/-- A literal binds a variable: a relation that has it in its arguments, or a disjunction that has
branches and all of whose branches bind it. -/
inductive Binds (x : String) : Node → Prop where
  | rel {name : String} {args : List Node} : VarIn x args → Binds x (rel name args)
  | disj {ds : List Node} : ds ≠ [] → (∀ d ∈ ds, Binds x d) → Binds x (disj ds)

/-- A literal needs a variable bound: a negated relation or an inequality that has it. -/
inductive Needs (x : String) : Node → Prop where
  | neg {name : String} {args : List Node} : VarIn x args → Needs x (neg (rel name args))
  | distinct {left right : Node} : VarIn x [left, right] → Needs x (distinct left right)

/-- What needs a variable never binds it. -/
theorem Needs.not_binds {x : String} {l : Node} (h : Needs x l) : ¬ Binds x l := by
  intro hb
  cases h <;> cases hb

theorem mem_common {x : String} {xss : List (List String)} :
    x ∈ common xss ↔ xss ≠ [] ∧ ∀ xs ∈ xss, x ∈ xs := by
  cases xss with
  | nil => simp [common]
  | cons xs rest => simp [common]

theorem mem_bound {x : String} {l : Node} : x ∈ l.bound ↔ Binds x l := by
  induction l with
  | rel name args _ =>
    rw [bound, mem_varsIn]
    constructor
    · exact .rel
    · rintro ⟨hx⟩
      exact hx
  | disj ds ih =>
    rw [bound, boundEach_eq_map, mem_common]
    simp only [ne_eq, List.map_eq_nil_iff, List.mem_map, forall_exists_index, and_imp,
      forall_apply_eq_imp_iff₂]
    constructor
    · rintro ⟨hne, h⟩
      exact .disj hne fun d hd => (ih d hd).1 (h d hd)
    · intro h
      cases h with
      | disj hne h => exact ⟨hne, fun d hd => (ih d hd).2 (h d hd)⟩
  | _ => exact iff_of_false (by simp [bound]) (by rintro ⟨⟩)

theorem mem_exposed_of_ne_disj {x : String} {l : Node} (h : ∀ ds, l ≠ disj ds) :
    x ∈ l.exposed ↔ Needs x l := by
  cases l with
  | neg body =>
    cases body with
    | rel name args =>
      rw [exposed, mem_varsIn]
      constructor
      · exact .neg
      · rintro ⟨hx⟩
        exact hx
    | _ => exact iff_of_false (by simp [exposed]) (by rintro ⟨⟩)
  | distinct left right =>
    rw [exposed, mem_varsIn]
    constructor
    · exact .distinct
    · intro hn
      cases hn with
      | distinct hx => exact hx
  | disj ds => exact absurd rfl (h ds)
  | _ => exact iff_of_false (by simp [exposed]) (by rintro ⟨⟩)

/-- A literal exposes what its leaves need. -/
theorem mem_exposed {x : String} {l : Node} : x ∈ l.exposed ↔ ∃ e ∈ l.leaves, Needs x e := by
  induction l with
  | disj ds ih =>
    rw [exposed, exposedIn_eq_flatMap, List.mem_flatMap]
    simp only [mem_leaves_disj]
    constructor
    · rintro ⟨d, hd, hx⟩
      obtain ⟨e, he, hn⟩ := (ih d hd).1 hx
      exact ⟨e, ⟨d, hd, he⟩, hn⟩
    · rintro ⟨e, ⟨d, hd, he⟩, hn⟩
      exact ⟨d, hd, (ih d hd).2 ⟨e, he, hn⟩⟩
  | _ =>
    rw [leaves_eq_singleton (by simp), mem_exposed_of_ne_disj (by simp)]
    simp

/-! ## Leaves and binding -/

/-- A literal is reached from another through disjunctions only. -/
inductive Below (m : Node) : Node → Prop where
  | self : Below m m
  | disj {d : Node} {ds : List Node} : d ∈ ds → Below m d → Below m (disj ds)

theorem below_disj {m : Node} {ds : List Node} :
    Below m (disj ds) ↔ m = disj ds ∨ ∃ d ∈ ds, Below m d := by
  constructor
  · intro h
    cases h with
    | self => exact .inl rfl
    | disj hd h => exact .inr ⟨_, hd, h⟩
  · rintro (rfl | ⟨d, hd, h⟩)
    · exact .self
    · exact .disj hd h

theorem below_iff_eq {m l : Node} (h : ∀ ds, l ≠ disj ds) : Below m l ↔ m = l := by
  constructor
  · intro hm
    cases hm with
    | self => rfl
    | disj _ _ => exact absurd rfl (h _)
  · rintro rfl
    exact .self

theorem Binds.of_leaf {x : String} {l e : Node} (h : Binds x l) (he : e ∈ l.leaves) : Binds x e := by
  induction l with
  | disj ds ih =>
    obtain ⟨d, hd, he⟩ := mem_leaves_disj.1 he
    cases h with
    | disj _ h => exact ih d hd (h d hd) he
  | _ =>
    rw [leaves_eq_singleton (by simp), List.mem_singleton] at he
    exact he ▸ h

/-- What does not bind a variable has a leaf that does not, if no disjunction is without branches. -/
theorem exists_leaf_not_binds {x : String} {l : Node} (hne : ∀ ds, Below (disj ds) l → ds ≠ [])
    (h : ¬ Binds x l) : ∃ e ∈ l.leaves, ¬ Binds x e := by
  induction l with
  | disj ds ih =>
    -- if all branches bound it, the disjunction would, since it has one
    have hbranch : ∃ d ∈ ds, ¬ Binds x d := by
      by_contra hall
      refine h (.disj (hne ds .self) fun d hd => ?_)
      by_contra hb
      exact hall ⟨d, hd, hb⟩
    obtain ⟨d, hd, hb⟩ := hbranch
    obtain ⟨e, he, hb⟩ := ih d hd (fun ds' hds' => hne ds' (.disj hd hds')) hb
    exact ⟨e, mem_leaves_disj.2 ⟨d, hd, he⟩, hb⟩
  | _ => exact ⟨_, by simp [leaves], h⟩

end Node

namespace Rule

/-! ## Safe rules -/

/-- A rule needs a variable bound: the arguments of its head have it, or a leaf of its body needs
it. -/
def Needs (r : Rule) (x : String) : Prop :=
  (∃ name args, r.head = .rel name args ∧ Node.VarIn x args) ∨
    ∃ l ∈ r.body, ∃ e ∈ l.leaves, Node.Needs x e

/-- Some literal of the body binds a variable. -/
def Binds (r : Rule) (x : String) : Prop := ∃ l ∈ r.body, Node.Binds x l

/-- A rule binds every variable that it needs. -/
def Safe (r : Rule) : Prop := ∀ x, r.Needs x → r.Binds x

theorem mem_exposed {r : Rule} {x : String} : x ∈ r.exposed ↔ r.Needs x := by
  unfold exposed Needs
  rw [List.mem_append, Node.mem_varsIn, Node.exposedIn_eq_flatMap, List.mem_flatMap]
  simp only [Node.mem_exposed]
  refine or_congr ?_ Iff.rfl
  cases r.head <;> simp [Node.sentenceArgs, Node.VarIn]

theorem mem_bound {r : Rule} {x : String} : x ∈ r.bound ↔ r.Binds x := by
  unfold bound Binds
  simp only [List.mem_flatMap, Node.mem_bound]

theorem safetyFault?_eq_none_iff {r : Rule} : r.safetyFault? = none ↔ r.Safe := by
  unfold safetyFault? Safe
  rw [Option.map_eq_none_iff, List.find?_eq_none]
  simp only [mem_exposed, Bool.not_eq_true', List.contains_eq_mem, decide_eq_false_iff_not,
    not_not, mem_bound]

/-- A refusal names a variable that the rule needs and does not bind. -/
theorem safetyFault?_eq_some {r : Rule} {f : Fault} (h : r.safetyFault? = some f) :
    ∃ x, f = .unboundVariable r x ∧ r.Needs x ∧ ¬ r.Binds x := by
  unfold safetyFault? at h
  obtain ⟨x, hx, rfl⟩ := Option.map_eq_some_iff.1 h
  refine ⟨x, rfl, mem_exposed.1 (List.mem_of_find?_eq_some hx), ?_⟩
  have hb := List.find?_some hx
  rw [Bool.not_eq_true', List.contains_eq_mem, decide_eq_false_iff_not, mem_bound] at hb
  exact hb

/-! ## Expansions -/

/-- A rule arises from another by choosing one leaf of each literal of the body. -/
def Expands (r e : Rule) : Prop :=
  e.head = r.head ∧ List.Forall₂ (fun l m => m ∈ l.leaves) r.body e.body

/-- Every disjunction of the body, also one inside others, has a branch. -/
def DisjunctionsFilled (r : Rule) : Prop := ∀ l ∈ r.body, ∀ ds, Node.Below (.disj ds) l → ds ≠ []

/-- A variable stands in the arguments of the head, in a negated conjunct or in an inequality. -/
def HasExposed (r : Rule) (x : String) : Prop :=
  (∃ name args, r.head = .rel name args ∧ Node.VarIn x args) ∨
    (∃ name args, .neg (.rel name args) ∈ r.body ∧ Node.VarIn x args) ∨
    ∃ left right, .distinct left right ∈ r.body ∧ Node.VarIn x [left, right]

/-- A variable stands in a positive conjunct. -/
def HasPositive (r : Rule) (x : String) : Prop :=
  ∃ name args, .rel name args ∈ r.body ∧ Node.VarIn x args

section Expansion

variable {r e : Rule} {x : String}

theorem Expands.exists_literal (he : r.Expands e) {m : Node} (hm : m ∈ e.body) :
    ∃ l ∈ r.body, m ∈ l.leaves := by
  have hbody := he.2
  generalize r.body = ls, e.body = ms at hbody hm ⊢
  induction hbody with
  | nil => cases hm
  | cons hlm _ ih =>
    rcases List.mem_cons.1 hm with rfl | hm
    · exact ⟨_, by simp, hlm⟩
    · obtain ⟨l, hl, hml⟩ := ih hm
      exact ⟨l, List.mem_cons_of_mem _ hl, hml⟩

theorem Expands.exists_leaf (he : r.Expands e) {l : Node} (hl : l ∈ r.body) :
    ∃ m ∈ e.body, m ∈ l.leaves := by
  have hbody := he.2
  generalize r.body = ls, e.body = ms at hbody hl ⊢
  induction hbody with
  | nil => cases hl
  | cons hlm _ ih =>
    rcases List.mem_cons.1 hl with rfl | hl
    · exact ⟨_, by simp, hlm⟩
    · obtain ⟨m, hm, hml⟩ := ih hl
      exact ⟨m, List.mem_cons_of_mem _ hm, hml⟩

/-- No disjunction is left in an expansion. -/
theorem Expands.ne_disj (he : r.Expands e) {m : Node} (hm : m ∈ e.body) (ds : List Node) :
    m ≠ .disj ds := by
  obtain ⟨l, -, hml⟩ := he.exists_literal hm
  exact Node.ne_disj_of_mem_leaves hml ds

theorem Expands.needs_iff (he : r.Expands e) : e.Needs x ↔ e.HasExposed x := by
  refine or_congr Iff.rfl ?_
  constructor
  · rintro ⟨m, hm, n, hn, hx⟩
    rw [Node.leaves_eq_singleton (he.ne_disj hm), List.mem_singleton] at hn
    subst hn
    cases hx with
    | neg hx => exact .inl ⟨_, _, hm, hx⟩
    | distinct hx => exact .inr ⟨_, _, hm, hx⟩
  · rintro (⟨name, args, hm, hx⟩ | ⟨left, right, hm, hx⟩)
    · exact ⟨_, hm, .neg (.rel name args), by simp [Node.leaves], .neg hx⟩
    · exact ⟨_, hm, .distinct left right, by simp [Node.leaves], .distinct hx⟩

theorem Expands.binds_iff (he : r.Expands e) : e.Binds x ↔ e.HasPositive x := by
  constructor
  · rintro ⟨m, hm, hx⟩
    cases hx with
    | rel hx => exact ⟨_, _, hm, hx⟩
    | disj _ _ => exact absurd rfl (he.ne_disj hm _)
  · rintro ⟨name, args, hm, hx⟩
    exact ⟨_, hm, .rel hx⟩

/-- An expansion needs no more than the rule. -/
theorem Expands.needs (he : r.Expands e) (h : e.Needs x) : r.Needs x := by
  rcases h with h | ⟨m, hm, n, hn, hx⟩
  · rw [he.1] at h
    exact .inl h
  · rw [Node.leaves_eq_singleton (he.ne_disj hm), List.mem_singleton] at hn
    subst hn
    obtain ⟨l, hl, hml⟩ := he.exists_literal hm
    exact .inr ⟨l, hl, n, hml, hx⟩

/-- What the rule binds, each expansion binds. -/
theorem Expands.binds (he : r.Expands e) (h : r.Binds x) : e.Binds x := by
  obtain ⟨l, hl, hx⟩ := h
  obtain ⟨m, hm, hml⟩ := he.exists_leaf hl
  exact ⟨m, hm, hx.of_leaf hml⟩

theorem Safe.expansion (h : r.Safe) (he : r.Expands e) : e.Safe :=
  fun x hx => he.binds (h x (he.needs hx))

theorem expands_map {c : Node → Node} (hc : ∀ l ∈ r.body, c l ∈ l.leaves) :
    r.Expands ⟨r.head, r.body.map c⟩ := by
  refine ⟨rfl, ?_⟩
  rw [List.forall₂_map_right_iff, List.forall₂_same]
  exact hc

/-- A variable that the rule needs and does not bind is needed and not bound in some expansion. -/
theorem exists_expansion_not_binds (hne : r.DisjunctionsFilled) (hx : r.Needs x) (hb : ¬ r.Binds x) :
    ∃ e, r.Expands e ∧ e.Needs x ∧ ¬ e.Binds x := by
  have hleaf : ∀ l ∈ r.body, ∃ m ∈ l.leaves, ¬ Node.Binds x m := fun l hl =>
    Node.exists_leaf_not_binds (hne l hl) fun h => hb ⟨l, hl, h⟩
  -- one leaf of each literal that does not bind the variable
  choose! c hcl hcb using hleaf
  rcases hx with hx | ⟨l, hl, n, hn, hx⟩
  · refine ⟨⟨r.head, r.body.map c⟩, expands_map hcl, .inl hx, ?_⟩
    rintro ⟨m, hm, hmx⟩
    obtain ⟨l, hl, rfl⟩ := List.mem_map.1 hm
    exact hcb l hl hmx
  · -- the literal that needs the variable takes the leaf that does, all others keep their choice
    let c' : Node → Node := fun k => if k = l then n else c k
    have hcl' : ∀ k ∈ r.body, c' k ∈ k.leaves := by
      intro k hk
      by_cases h : k = l
      · simpa [c', h] using hn
      · simpa [c', h] using hcl k hk
    refine ⟨⟨r.head, r.body.map c'⟩, expands_map hcl', .inr ⟨n, ?_, n, ?_, hx⟩, ?_⟩
    · exact List.mem_map.2 ⟨l, hl, by simp [c']⟩
    · rw [Node.leaves_eq_singleton (Node.ne_disj_of_mem_leaves hn)]
      simp
    · rintro ⟨m, hm, hmx⟩
      obtain ⟨k, hk, rfl⟩ := List.mem_map.1 hm
      by_cases h : k = l
      · exact hx.not_binds (by simpa [c', h] using hmx)
      · exact hcb k hk (by simpa [c', h] using hmx)

end Expansion

/-- Safety agrees with the expansion of disjunctions. A rule that passes has only expansions that
pass. If no disjunction is without branches the converse holds as well; to pass then means that each
expansion has every exposed variable in a positive conjunct, and a refusal names a variable for
which some expansion has not. -/
theorem safetyFault?_iff_expansions (r : Rule) :
    (r.safetyFault? = none → ∀ e, r.Expands e → e.safetyFault? = none) ∧
    (r.DisjunctionsFilled →
      (r.safetyFault? = none ↔ ∀ e, r.Expands e → e.safetyFault? = none) ∧
      (r.safetyFault? = none ↔ ∀ e, r.Expands e → ∀ x, e.HasExposed x → e.HasPositive x) ∧
      ∀ f, r.safetyFault? = some f → ∃ x, f = .unboundVariable r x ∧
        ∃ e, r.Expands e ∧ e.HasExposed x ∧ ¬ e.HasPositive x) := by
  simp only [safetyFault?_eq_none_iff]
  have hdown : r.Safe → ∀ e, r.Expands e → e.Safe := fun h e he => h.expansion he
  have hplain : ∀ e, r.Expands e → (e.Safe ↔ ∀ x, e.HasExposed x → e.HasPositive x) := by
    intro e he
    unfold Safe
    simp only [he.needs_iff, he.binds_iff]
  refine ⟨hdown, fun hne => ?_⟩
  have hup : (∀ e, r.Expands e → e.Safe) → r.Safe := by
    intro h x hx
    by_contra hb
    obtain ⟨e, he, hex, heb⟩ := exists_expansion_not_binds hne hx hb
    exact heb (h e he x hex)
  refine ⟨⟨hdown, hup⟩, ?_, fun f hf => ?_⟩
  · constructor
    · intro h e he
      exact (hplain e he).1 (hdown h e he)
    · intro h
      exact hup fun e he => (hplain e he).2 (h e he)
  · obtain ⟨x, rfl, hx, hb⟩ := safetyFault?_eq_some hf
    obtain ⟨e, he, hex, heb⟩ := exists_expansion_not_binds hne hx hb
    exact ⟨x, rfl, e, he, he.needs_iff.1 hex, fun h => heb (he.binds_iff.2 h)⟩

/-- A variable that one branch of a nested disjunction leaves open is exposed in the expansion that
takes this branch. -/
theorem expansion_of_open_branch :
    ∃ e, Expands ⟨.rel "p" [.var "?x"],
        [.disj [.rel "a" [.var "?x"], .disj [.rel "b" [.var "?x"], .neg (.rel "c" [.var "?x"])]]]⟩ e ∧
      e.HasExposed "?x" ∧ ¬ e.HasPositive "?x" := by
  have hfilled : DisjunctionsFilled ⟨.rel "p" [.var "?x"],
      [.disj [.rel "a" [.var "?x"], .disj [.rel "b" [.var "?x"], .neg (.rel "c" [.var "?x"])]]]⟩ := by
    intro l hl ds hds
    rw [List.mem_singleton.1 hl] at hds
    simp only [Node.below_disj, List.exists_mem_cons_iff, Node.below_iff_eq, ne_eq, reduceCtorEq,
      not_false_eq_true, implies_true, Node.disj.injEq, false_or, List.not_mem_nil, false_and,
      exists_false, or_false] at hds
    rcases hds with rfl | rfl <;> simp
  obtain ⟨x, hf, he⟩ := ((safetyFault?_iff_expansions _).2 hfilled).2.2
    (.unboundVariable _ "?x") rfl
  cases hf
  exact he

end Rule

end GameRules
