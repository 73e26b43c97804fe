/-
What stands in a tree, said as relations: a term inside a term, a sentence inside a literal with or
without a negation above it, a literal below disjunctions, a node on the walk. Each list that the
checks read holds exactly what its relation says, so later proofs speak of the relations and leave
the recursions alone.
-/
import GameRules.Graph.OfRules
import GameRules.Node.Occurrence
import GameRules.Node.Traversal

namespace GameRules

namespace Node

/-! ## Induction on trees -/

/-- Induction with a hypothesis for every part of a node, the members of its lists included. -/
@[induction_eliminator]
theorem induct {motive : Node → Prop}
    (const : ∀ value, motive (.const value))
    (var : ∀ name, motive (.var name))
    (fn : ∀ name args, (∀ a ∈ args, motive a) → motive (.fn name args))
    (prop : ∀ name, motive (.prop name))
    (rel : ∀ name args, (∀ a ∈ args, motive a) → motive (.rel name args))
    (neg : ∀ body, motive body → motive (.neg body))
    (disj : ∀ ds, (∀ d ∈ ds, motive d) → motive (.disj ds))
    (distinct : ∀ left right, motive left → motive right → motive (.distinct left right))
    (rule : ∀ head body, motive head → (∀ l ∈ body, motive l) → motive (.rule head body))
    (desc : ∀ items, (∀ n ∈ items, motive n) → motive (.desc items))
    (plain : ∀ p, motive (.plain p)) (n : Node) : motive n := by
  have ih : ∀ m, sizeOf m < sizeOf n → motive m := fun m _ =>
    induct const var fn prop rel neg disj distinct rule desc plain m
  cases n with
  | const value => exact const value
  | var name => exact var name
  | fn name args => exact fn name args fun a ha => ih a (by decreasing_tactic)
  | prop name => exact prop name
  | rel name args => exact rel name args fun a ha => ih a (by decreasing_tactic)
  | neg body => exact neg body (ih body (by decreasing_tactic))
  | disj ds => exact disj ds fun d hd => ih d (by decreasing_tactic)
  | distinct left right =>
    exact distinct left right (ih left (by decreasing_tactic)) (ih right (by decreasing_tactic))
  | rule head body =>
    exact rule head body (ih head (by decreasing_tactic)) fun l hl => ih l (by decreasing_tactic)
  | desc items => exact desc items fun n hn => ih n (by decreasing_tactic)
  | plain p => exact plain p
termination_by sizeOf n

/-! ## Terms in terms -/

/-- A term stands in another: it is that one, or stands in an argument of the function that is. -/
inductive TermIn (t : Node) : Node → Prop where
  | self : TermIn t t
  | arg {name : String} {args : List Node} {a : Node} : a ∈ args → TermIn t a → TermIn t (fn name args)

/-- A variable stands in one of some terms. -/
def VarIn (x : String) (ts : List Node) : Prop := ∃ t ∈ ts, TermIn (var x) t

theorem termIn_fn {t : Node} {name : String} {args : List Node} :
    TermIn t (fn name args) ↔ t = fn name args ∨ ∃ a ∈ args, TermIn t a := by
  constructor
  · intro h
    cases h with
    | self => exact .inl rfl
    | arg ha h => exact .inr ⟨_, ha, h⟩
  · rintro (rfl | ⟨a, ha, h⟩)
    · exact .self
    · exact .arg ha h

/-- Only a function has terms in it other than itself. -/
theorem termIn_iff_eq {t u : Node} (h : ∀ name args, u ≠ fn name args) : TermIn t u ↔ t = u := by
  constructor
  · intro ht
    cases ht with
    | self => rfl
    | arg _ _ => exact absurd rfl (h _ _)
  · rintro rfl
    exact .self

theorem mem_vars {x : String} {t : Node} : x ∈ t.vars ↔ TermIn (var x) t := by
  induction t with
  | fn name args ih =>
    rw [vars, varsIn_eq_flatMap, List.mem_flatMap, termIn_fn]
    constructor
    · rintro ⟨a, ha, hx⟩
      exact .inr ⟨a, ha, (ih a ha).1 hx⟩
    · rintro (h | ⟨a, ha, h⟩)
      · cases h
      · exact ⟨a, ha, (ih a ha).2 h⟩
  | _ =>
    rw [termIn_iff_eq (by simp)]
    simp [vars]

theorem mem_varsIn {x : String} {ts : List Node} : x ∈ varsIn ts ↔ VarIn x ts := by
  rw [varsIn_eq_flatMap, List.mem_flatMap]
  simp only [mem_vars, VarIn]

theorem mem_functions {f : Application} {t : Node} : f ∈ t.functions ↔ TermIn f.toNode t := by
  induction t with
  | fn name args ih =>
    rw [functions, functionsIn_eq_flatMap, List.mem_cons, List.mem_flatMap, termIn_fn]
    have hself : f = ⟨name, args⟩ ↔ f.toNode = fn name args := by
      cases f
      simp [Application.toNode]
    rw [hself]
    constructor
    · rintro (h | ⟨a, ha, h⟩)
      · exact .inl h
      · exact .inr ⟨a, ha, (ih a ha).1 h⟩
    · rintro (h | ⟨a, ha, h⟩)
      · exact .inl h
      · exact .inr ⟨a, ha, (ih a ha).2 h⟩
  | _ =>
    rw [termIn_iff_eq (by simp)]
    simp [functions, Application.toNode]

theorem mem_functionsIn {f : Application} {ts : List Node} :
    f ∈ functionsIn ts ↔ ∃ t ∈ ts, TermIn f.toNode t := by
  rw [functionsIn_eq_flatMap, List.mem_flatMap]
  simp only [mem_functions]

/-! ## Sentences in literals -/

/-- A sentence stands in a literal, below negations and disjunctions only; the flag tells whether
some negation is above it. -/
inductive Occurs (s : Node) : Bool → Node → Prop where
  | self : s.isSentence = true → Occurs s false s
  | neg {negated : Bool} {body : Node} : Occurs s negated body → Occurs s true (neg body)
  | disj {negated : Bool} {d : Node} {ds : List Node} :
    d ∈ ds → Occurs s negated d → Occurs s negated (disj ds)

theorem Occurs.isSentence {s l : Node} {negated : Bool} (h : Occurs s negated l) :
    s.isSentence = true := by
  induction h with
  | self h => exact h
  | neg _ ih => exact ih
  | disj _ _ ih => exact ih

theorem occurs_neg {s body : Node} {negated : Bool} :
    Occurs s negated (neg body) ↔ negated = true ∧ ∃ b, Occurs s b body := by
  constructor
  · intro h
    cases h with
    | self h => cases h
    | neg h => exact ⟨rfl, _, h⟩
  · rintro ⟨rfl, b, h⟩
    exact .neg h

theorem occurs_disj {s : Node} {ds : List Node} {negated : Bool} :
    Occurs s negated (disj ds) ↔ ∃ d ∈ ds, Occurs s negated d := by
  constructor
  · intro h
    cases h with
    | self h => cases h
    | disj hd h => exact ⟨_, hd, h⟩
  · rintro ⟨d, hd, h⟩
    exact .disj hd h

/-- A literal that is no negation and no disjunction holds at most itself. -/
theorem occurs_iff_eq {s l : Node} {negated : Bool} (hn : ∀ body, l ≠ neg body)
    (hd : ∀ ds, l ≠ disj ds) :
    Occurs s negated l ↔ s = l ∧ l.isSentence = true ∧ negated = false := by
  constructor
  · intro h
    cases h with
    | self h => exact ⟨rfl, h, rfl⟩
    | neg _ => exact absurd rfl (hn _)
    | disj _ _ => exact absurd rfl (hd _)
  · rintro ⟨rfl, h, rfl⟩
    exact .self h

theorem mem_sentences {s l : Node} : s ∈ l.sentences ↔ ∃ negated, Occurs s negated l := by
  induction l with
  | neg body ih =>
    rw [sentences, ih]
    simp only [occurs_neg, exists_eq_left]
  | disj ds ih =>
    rw [sentences, sentencesIn_eq_flatMap, List.mem_flatMap]
    simp only [occurs_disj]
    constructor
    · rintro ⟨d, hd, h⟩
      obtain ⟨b, h⟩ := (ih d hd).1 h
      exact ⟨b, d, hd, h⟩
    · rintro ⟨b, d, hd, h⟩
      exact ⟨d, hd, (ih d hd).2 ⟨b, h⟩⟩
  | _ =>
    simp only [occurs_iff_eq, ne_eq, reduceCtorEq, not_false_eq_true, implies_true]
    simp [sentences, isSentence]

/-- The uses read off a literal are the names of the sentences in it. A use counts as negated if
the literal itself does, or if a negation stands between the two. -/
theorem mem_references {l : Node} {outer negated : Bool} {name : String} :
    ⟨name, negated⟩ ∈ references outer l ↔
      ∃ s inner, Occurs s inner l ∧ s.name? = some name ∧ negated = (outer || inner) := by
  induction l generalizing outer with
  | neg body ih =>
    rw [references, ih]
    -- below a negation every use counts as negated, whatever stands between
    simp only [occurs_neg, Bool.true_or]
    constructor
    · rintro ⟨s, b, h, hn, rfl⟩
      exact ⟨s, true, ⟨rfl, b, h⟩, hn, by simp⟩
    · rintro ⟨s, b, ⟨rfl, b', h⟩, hn, rfl⟩
      exact ⟨s, b', h, hn, by simp⟩
  | disj ds ih =>
    rw [references, referencesIn_eq_flatMap, List.mem_flatMap]
    simp only [occurs_disj]
    constructor
    · rintro ⟨d, hd, h⟩
      obtain ⟨s, b, h, hn, hb⟩ := (ih d hd).1 h
      exact ⟨s, b, ⟨d, hd, h⟩, hn, hb⟩
    · rintro ⟨s, b, ⟨d, hd, h⟩, hn, hb⟩
      exact ⟨d, hd, (ih d hd).2 ⟨s, b, h, hn, hb⟩⟩
  | _ =>
    simp only [occurs_iff_eq, ne_eq, reduceCtorEq, not_false_eq_true, implies_true]
    simp [references, isSentence, name?, eq_comm (a := name)]

/-! ## Literals below disjunctions -/

mutual

/-- The literals that a literal offers as alternatives: a disjunction offers those of all its
branches, any other literal only itself. -/
def leaves : Node → List Node
  | disj ds => leavesIn ds
  | l => [l]

def leavesIn : List Node → List Node
  | [] => []
  | l :: ls => l.leaves ++ leavesIn ls

end

theorem leavesIn_eq_flatMap (ls : List Node) : leavesIn ls = ls.flatMap leaves := by
  induction ls with
  | nil => rfl
  | cons l ls ih => simp [leavesIn, ih]

theorem mem_leaves_disj {e : Node} {ds : List Node} :
    e ∈ (disj ds).leaves ↔ ∃ d ∈ ds, e ∈ d.leaves := by
  rw [leaves, leavesIn_eq_flatMap, List.mem_flatMap]

theorem leaves_eq_singleton {l : Node} (h : ∀ ds, l ≠ disj ds) : l.leaves = [l] := by
  cases l with
  | disj ds => exact absurd rfl (h ds)
  | _ => rfl

/-- No disjunction is left among the leaves. -/
theorem ne_disj_of_mem_leaves {e l : Node} (h : e ∈ l.leaves) (ds : List Node) : e ≠ disj ds := by
  induction l with
  | disj ds' ih =>
    obtain ⟨d, hd, h⟩ := mem_leaves_disj.1 h
    exact ih d hd h
  | _ =>
    rw [leaves_eq_singleton (by simp), List.mem_singleton] at h
    simp [h]

/-! ## Nodes on the walk -/

/-- The parts that the walk enters as terms. -/
def termParts : Node → List Node
  | fn _ args => args
  | rel _ args => args
  | distinct left right => [left, right]
  | _ => []

/-- The parts that the walk enters as nodes. -/
def parts : Node → List Node
  | neg body => [body]
  | disj ds => ds
  | rule head body => head :: body
  | desc items => items
  | _ => []

/-- A node is met on the walk from another: it is that one, stands as a term in one of its parts,
or is met from one of them. -/
inductive OnWalk (m : Node) : Node → Prop where
  | self : OnWalk m m
  | term {n t : Node} : t ∈ n.termParts → TermIn m t → OnWalk m n
  | part {n p : Node} : p ∈ n.parts → OnWalk m p → OnWalk m n

theorem mem_walkTerm {m t : Node} : m ∈ t.walkTerm.map Visit.met ↔ TermIn m t := by
  induction t with
  | fn name args ih =>
    rw [walkTerm, walkTerms_eq_flatMap, List.map_cons, List.mem_cons, List.map_flatMap,
      List.mem_flatMap, termIn_fn]
    constructor
    · rintro (h | ⟨a, ha, h⟩)
      · exact .inl h
      · exact .inr ⟨a, ha, (ih a ha).1 h⟩
    · rintro (h | ⟨a, ha, h⟩)
      · exact .inl h
      · exact .inr ⟨a, ha, (ih a ha).2 h⟩
  | _ =>
    rw [termIn_iff_eq (by simp)]
    simp [walkTerm, Visit.met]

/-- The walk meets the node itself, then its parts that are terms, then its other parts. -/
theorem map_met_walk (n : Node) :
    n.walk.map Visit.met =
      n :: ((walkTerms n.termParts).map Visit.met ++ (walkAll n.parts).map Visit.met) := by
  cases n <;> simp [walk, walkTerm, walkTerms, walkAll, termParts, parts, Visit.met]

/-- Induction along the walk. -/
theorem parts_induct {motive : Node → Prop} (h : ∀ n, (∀ p ∈ n.parts, motive p) → motive n)
    (n : Node) : motive n := by
  induction n with
  | neg body ih => exact h _ fun p hp => List.mem_singleton.1 hp ▸ ih
  | disj ds ih => exact h _ ih
  | rule head body ihh ihb =>
    refine h _ fun p hp => ?_
    rcases List.mem_cons.1 hp with rfl | hp
    · exact ihh
    · exact ihb p hp
  | desc items ih => exact h _ ih
  | _ => exact h _ fun p hp => absurd hp (by simp [parts])

/-- The nodes that the walk meets are those on it. -/
theorem mem_walk {m n : Node} : m ∈ n.walk.map Visit.met ↔ OnWalk m n := by
  induction n using parts_induct with
  | h n ih =>
    rw [map_met_walk, List.mem_cons, List.mem_append, walkTerms_eq_flatMap, walkAll_eq_flatMap,
      List.map_flatMap, List.map_flatMap, List.mem_flatMap, List.mem_flatMap]
    simp only [mem_walkTerm]
    constructor
    · rintro (rfl | ⟨t, ht, h⟩ | ⟨p, hp, h⟩)
      · exact .self
      · exact .term ht h
      · exact .part hp ((ih p hp).1 h)
    · intro h
      cases h with
      | self => exact .inl rfl
      | term ht h => exact .inr (.inl ⟨_, ht, h⟩)
      | part hp h => exact .inr (.inr ⟨_, hp, (ih _ hp).2 h⟩)

end Node

/-! ## Sentences in rules -/

namespace Rule

/-- The body of a rule uses a sentence, below a negation or not. -/
def Uses (r : Rule) (s : Node) (negated : Bool) : Prop := ∃ l ∈ r.body, Node.Occurs s negated l

theorem mem_bodySentences {r : Rule} {s : Node} :
    s ∈ r.bodySentences ↔ ∃ negated, r.Uses s negated := by
  rw [bodySentences, Node.sentencesIn_eq_flatMap, List.mem_flatMap]
  simp only [Node.mem_sentences, Uses]
  constructor
  · rintro ⟨l, hl, b, h⟩
    exact ⟨b, l, hl, h⟩
  · rintro ⟨b, l, hl, h⟩
    exact ⟨l, hl, b, h⟩

theorem mem_referencesIn_body {r : Rule} {name : String} {negated : Bool} :
    ⟨name, negated⟩ ∈ Node.referencesIn false r.body ↔ ∃ s, r.Uses s negated ∧ s.name? = some name := by
  rw [Node.referencesIn_eq_flatMap, List.mem_flatMap]
  simp only [Node.mem_references, Uses, Bool.false_or]
  constructor
  · rintro ⟨l, hl, s, b, h, hn, rfl⟩
    exact ⟨s, ⟨l, hl, h⟩, hn⟩
  · rintro ⟨s, ⟨l, hl, h⟩, hn⟩
    exact ⟨l, hl, s, negated, h, hn, rfl⟩

end Rule

end GameRules
