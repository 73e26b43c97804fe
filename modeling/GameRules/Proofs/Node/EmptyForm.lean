/-
Empty forms on the walk. The check looks for them in the order of the walk, so it is exact about the
place too: the form that it reports stands before every other one that is met. The walk does not enter
all that stands in a tree, since where a term is meant it enters functions only. In trees that have
terms wherever terms are meant nothing is left out, and the check then speaks for every depth.
-/
import GameRules.Proofs.Node.Places

namespace GameRules.Node

/-! ## Empty forms -/

/-- A function or relation with nothing in its parentheses, or a rule without a body. -/
inductive IsEmptyForm : Node → Prop where
  | fn (name : String) : IsEmptyForm (fn name [])
  | rel (name : String) : IsEmptyForm (rel name [])
  | rule (head : Node) : IsEmptyForm (rule head [])

theorem emptyForm?_eq_none_iff {n : Node} : n.emptyForm? = none ↔ ¬ IsEmptyForm n := by
  constructor
  · intro h he
    cases he <;> cases h
  · intro h
    unfold emptyForm?
    split
    · exact absurd (.fn _) h
    · exact absurd (.rel _) h
    · exact absurd (.rule _) h
    · rfl

theorem emptyForm?_code {n : Node} {f : Fault} (h : n.emptyForm? = some f) :
    f.code ∈ ["E110", "E111", "E112"] := by
  unfold emptyForm? at h
  split at h <;> cases h <;> simp [Fault.code]

theorem emptyFormFault?_eq_none_iff {roots : List Node} :
    emptyFormFault? roots = none ↔ ∀ n ∈ roots, ∀ m, OnWalk m n → ¬ IsEmptyForm m := by
  unfold emptyFormFault?
  rw [walkAll_eq_flatMap, List.findSome?_eq_none_iff]
  simp only [List.mem_flatMap, emptyForm?_eq_none_iff, ← mem_walk, List.mem_map]
  constructor
  · rintro h n hn m ⟨v, hv, rfl⟩
    exact h v ⟨n, hn, hv⟩
  · rintro h v ⟨n, hn, hv⟩
    exact h n hn v.met ⟨v, hv, rfl⟩

/-! ## The first empty form -/

/-- The code that an empty form is refused with. -/
inductive EmptyFormCode : Node → String → Prop where
  | fn (name : String) : EmptyFormCode (fn name []) "E110"
  | rel (name : String) : EmptyFormCode (rel name []) "E111"
  | rule (head : Node) : EmptyFormCode (rule head []) "E112"

theorem emptyForm?_reports {n : Node} {f : Fault} (h : n.emptyForm? = some f) :
    EmptyFormCode n f.code ∧ f.subject = .node n := by
  unfold emptyForm? at h
  split at h <;> cases h
  · exact ⟨.fn _, rfl⟩
  · exact ⟨.rel _, rfl⟩
  · exact ⟨.rule _, rfl⟩

theorem exists_emptyForm?_iff {n : Node} : (∃ f, n.emptyForm? = some f) ↔ IsEmptyForm n := by
  rw [← Option.ne_none_iff_exists', ne_eq, emptyForm?_eq_none_iff, not_not]

/-- A node is met at a place on the walks from some roots, one after another. -/
def MetFrom (roots : List Node) (p : Place) (m : Node) : Prop :=
  ∃ i n way, roots[i]? = some n ∧ p = i :: way ∧ MetAt m way n

theorem inOrder_walkAll (roots : List Node) :
    InOrder (MetFrom roots) ((walkAll roots).map Visit.met) := by
  rw [walkAll_eq_flatMap, List.map_flatMap]
  exact inOrder_flatMap fun n _ => inOrder_walk n

theorem emptyFormFault?_eq_findSome? (roots : List Node) :
    emptyFormFault? roots = ((walkAll roots).map Visit.met).findSome? emptyForm? := by
  rw [List.findSome?_map]
  rfl

/-- What is reported is the form that is met before all others. -/
theorem emptyFormFault?_eq_some {roots : List Node} {f : Fault} (h : emptyFormFault? roots = some f) :
    ∃ p m, MetFrom roots p m ∧ m.emptyForm? = some f ∧
      ∀ q k, MetFrom roots q k → IsEmptyForm k → (q = p ∧ k = m) ∨ p < q := by
  rw [emptyFormFault?_eq_findSome?, findSome?_eq_some_iff_firstOf] at h
  obtain ⟨m, hfirst, hm⟩ := h
  obtain ⟨p, hp, hothers⟩ := (inOrder_walkAll roots).place_of_firstIn hfirst
  exact ⟨p, m, hp, hm, fun q k hk he => hothers q k hk (exists_emptyForm?_iff.2 he)⟩

/-! ## Every depth -/

/-- A node stands in another at any depth, whatever stands between the two. -/
inductive Within (m : Node) : Node → Prop where
  | self : Within m m
  | part {n p : Node} : p ∈ n.termParts ++ n.parts → Within m p → Within m n

def isTerm : Node → Bool
  | const _ => true
  | var _ => true
  | fn _ _ => true
  | _ => false

/-- Wherever in a node a term is meant, there is one. -/
def TermsInPlace (n : Node) : Prop := ∀ k, Within k n → ∀ t ∈ k.termParts, t.isTerm = true

theorem termsInPlace_iff {n : Node} :
    TermsInPlace n ↔ (∀ t ∈ n.termParts, t.isTerm = true) ∧
      ∀ p ∈ n.termParts ++ n.parts, TermsInPlace p := by
  constructor
  · intro h
    exact ⟨h n .self, fun p hp k hk => h k (.part hp hk)⟩
  · rintro ⟨hself, hparts⟩ k hk
    cases hk with
    | self => exact hself
    | part hp hk => exact hparts _ hp k hk

/-- Only functions stand between a term and what is in it. -/
theorem Within.termIn {m t : Node} (h : Within m t) (ht : t.isTerm = true) (hn : TermsInPlace t) :
    TermIn m t := by
  induction h with
  | self => exact .self
  | @part t p hp h ih =>
    obtain ⟨hterms, hparts⟩ := termsInPlace_iff.1 hn
    cases t with
    | fn name args =>
      have hp' : p ∈ args := by simpa [termParts, parts] using hp
      exact .arg hp' (ih (hterms p hp') (hparts p hp))
    | const value => simp [termParts, parts] at hp
    | var name => simp [termParts, parts] at hp
    | _ => cases ht

/-- With terms in their places the walk leaves nothing out. -/
theorem Within.onWalk {m n : Node} (h : Within m n) (hn : TermsInPlace n) : OnWalk m n := by
  induction h with
  | self => exact .self
  | @part n p hp h ih =>
    obtain ⟨hterms, hparts⟩ := termsInPlace_iff.1 hn
    rcases List.mem_append.1 hp with hp' | hp'
    · exact .term hp' (h.termIn (hterms p hp') (hparts p hp))
    · exact .part hp' (ih (hparts p hp))

/-- The check for empty forms is exact: it reports a fault exactly if the walk over the facts and then
the rules meets an empty form, and code and subject are those of the form that it meets first. If the
check finds nothing in trees with terms wherever terms are meant, no empty form stands in them at any
depth. -/
theorem emptyFormFault?_reports_first (facts rules : List Node) :
    ((∃ f, emptyFormFault? (facts ++ rules) = some f) ↔
      ∃ p m, MetFrom (facts ++ rules) p m ∧ IsEmptyForm m) ∧
    (∀ f, emptyFormFault? (facts ++ rules) = some f →
      ∃ p m, MetFrom (facts ++ rules) p m ∧ EmptyFormCode m f.code ∧ f.subject = .node m ∧
        ∀ q k, MetFrom (facts ++ rules) q k → IsEmptyForm k → (q = p ∧ k = m) ∨ p < q) ∧
    (emptyFormFault? (facts ++ rules) = none → (∀ n ∈ facts ++ rules, TermsInPlace n) →
      ∀ n ∈ facts ++ rules, ∀ m, Within m n → ¬ IsEmptyForm m) := by
  refine ⟨⟨?_, ?_⟩, fun f hf => ?_, fun hnone hterms n hn m hm => ?_⟩
  · rintro ⟨f, hf⟩
    obtain ⟨p, m, hp, hm, -⟩ := emptyFormFault?_eq_some hf
    exact ⟨p, m, hp, exists_emptyForm?_iff.1 ⟨f, hm⟩⟩
  · rintro ⟨p, m, hp, hm⟩
    obtain ⟨f, hf⟩ := exists_emptyForm?_iff.2 hm
    rw [← Option.ne_none_iff_exists', emptyFormFault?_eq_findSome?, ne_eq, List.findSome?_eq_none_iff]
    intro hnone
    rw [hnone m ((inOrder_walkAll _).mem_iff.2 ⟨p, hp⟩)] at hf
    cases hf
  · obtain ⟨p, m, hp, hm, hothers⟩ := emptyFormFault?_eq_some hf
    obtain ⟨hcode, hsubject⟩ := emptyForm?_reports hm
    exact ⟨p, m, hp, hcode, hsubject, hothers⟩
  · exact emptyFormFault?_eq_none_iff.1 hnone n hn m (hm.onWalk (hterms n hn))

/-- A side of a difference holds an empty function, and a rule without a body comes after it. -/
def hollowRules : List Node :=
  [rule (prop "win") [disj [neg (prop "lose"), distinct (fn "pair" [fn "none" []]) (var "?x")]],
    rule (prop "lose") []]

def fullRules : List Node :=
  [rule (prop "win") [neg (prop "lose"), distinct (fn "pair" [var "?x", const "b"]) (var "?y")]]

theorem termsInPlace_of_leaf {n : Node} (h : n.termParts ++ n.parts = []) : TermsInPlace n := by
  obtain ⟨hterms, -⟩ := List.append_eq_nil_iff.1 h
  rw [termsInPlace_iff, h, hterms]
  simp

theorem fullRules_termsInPlace : ∀ n ∈ fullRules, TermsInPlace n := by
  have hleaf : ∀ n ∈ [prop "win", prop "lose", var "?x", const "b", var "?y"], TermsInPlace n := by
    intro n hn
    simp only [List.mem_cons, List.not_mem_nil, or_false] at hn
    rcases hn with rfl | rfl | rfl | rfl | rfl <;> exact termsInPlace_of_leaf rfl
  simp only [List.forall_mem_cons] at hleaf
  obtain ⟨hwin, hlose, hx, hb, hy, -⟩ := hleaf
  have hpair : TermsInPlace (fn "pair" [var "?x", const "b"]) :=
    termsInPlace_iff.2 ⟨by decide, by simp [termParts, parts, hx, hb]⟩
  have hneg : TermsInPlace (neg (prop "lose")) :=
    termsInPlace_iff.2 ⟨by decide, by simp [termParts, parts, hlose]⟩
  have hdistinct : TermsInPlace (distinct (fn "pair" [var "?x", const "b"]) (var "?y")) :=
    termsInPlace_iff.2 ⟨by decide, by simp [termParts, parts, hpair, hy]⟩
  intro n hn
  rw [fullRules, List.mem_singleton] at hn
  subst hn
  exact termsInPlace_iff.2 ⟨by decide, by simp [termParts, parts, hwin, hneg, hdistinct]⟩

/-- The empty function is met before the rule without a body, and rules without empty forms on the walk
have none at all. -/
theorem emptyForms_of_two_games :
    (∃ p, MetFrom ([rel "at" [const "a"]] ++ hollowRules) p (fn "none" []) ∧
      ∀ q k, MetFrom ([rel "at" [const "a"]] ++ hollowRules) q k → IsEmptyForm k →
        (q = p ∧ k = fn "none" []) ∨ p < q) ∧
    ∀ n ∈ [] ++ fullRules, ∀ m, Within m n → ¬ IsEmptyForm m := by
  constructor
  · have hf : emptyFormFault? ([rel "at" [const "a"]] ++ hollowRules) = some (.emptyFunction "none") := by
      decide
    obtain ⟨p, m, hp, -, hsubject, hothers⟩ := (emptyFormFault?_reports_first _ _).2.1 _ hf
    cases hsubject
    exact ⟨p, hp, hothers⟩
  · exact (emptyFormFault?_reports_first [] fullRules).2.2 (by decide) fullRules_termsInPlace

end GameRules.Node
