/-
Places in trees. The place of a node is the way to it: at each level, the number of the part that is
entered. Places are compared like words, so a node comes before its parts, and a part with all that
is in it before the next one. What the checks read off trees is read in this order: each list holds
exactly what stands at some places, one entry for each place, in the order of the places.
-/
import GameRules.Proofs.First
import GameRules.Proofs.Node.Occurrence
import Mathlib.Data.List.Basic
import Mathlib.Data.List.Induction

namespace GameRules

/-- The way to a node, from the outside in. -/
abbrev Place := List Nat

/-- A list holds what stands at some places, one entry for each place, in the order of the places. -/
def InOrder {α : Type} (At : Place → α → Prop) (xs : List α) : Prop :=
  ∃ placed : List (Place × α), placed.Pairwise (·.1 < ·.1) ∧
    (∀ p x, (p, x) ∈ placed ↔ At p x) ∧ placed.map (·.2) = xs

section InOrder

variable {α β : Type} {At At' : Place → α → Prop} {xs ys : List α}

/-! ## Lists put together -/

theorem InOrder.congr (h : InOrder At xs) (hAt : ∀ p x, At p x ↔ At' p x) : InOrder At' xs := by
  obtain ⟨placed, hlt, hmem, hxs⟩ := h
  exact ⟨placed, hlt, fun p x => (hmem p x).trans (hAt p x), hxs⟩

theorem inOrder_nil (h : ∀ p x, ¬ At p x) : InOrder At [] :=
  ⟨[], .nil, fun p x => by simp [h p x], rfl⟩

/-- One entry goes before all others. -/
theorem InOrder.cons {p : Place} {x : α} (h : InOrder At xs) (hlt : ∀ q y, At q y → p < q) :
    InOrder (fun q y => (q = p ∧ y = x) ∨ At q y) (x :: xs) := by
  obtain ⟨placed, hp, hmem, rfl⟩ := h
  refine ⟨(p, x) :: placed, List.pairwise_cons.2 ⟨?_, hp⟩, fun q y => ?_, rfl⟩
  · rintro ⟨q, y⟩ hq
    exact hlt q y ((hmem q y).1 hq)
  · rw [List.mem_cons, Prod.mk.injEq, hmem]

theorem InOrder.append (h : InOrder At xs) (h' : InOrder At' ys)
    (hlt : ∀ p x q y, At p x → At' q y → p < q) :
    InOrder (fun p x => At p x ∨ At' p x) (xs ++ ys) := by
  obtain ⟨placed, hp, hmem, rfl⟩ := h
  obtain ⟨placed', hp', hmem', rfl⟩ := h'
  refine ⟨placed ++ placed', List.pairwise_append.2 ⟨hp, hp', ?_⟩, fun p x => ?_, List.map_append⟩
  · rintro ⟨p, x⟩ hx ⟨q, y⟩ hy
    exact hlt p x q y ((hmem p x).1 hx) ((hmem' q y).1 hy)
  · rw [List.mem_append, hmem, hmem']

/-- What is in order inside a part is in order seen from outside. -/
theorem InOrder.enter (h : InOrder At xs) (i : Nat) :
    InOrder (fun p x => ∃ way, p = i :: way ∧ At way x) xs := by
  obtain ⟨placed, hp, hmem, rfl⟩ := h
  refine ⟨placed.map fun e => (i :: e.1, e.2), List.pairwise_map.2 (hp.imp fun hlt => ?_),
    fun p x => ?_, by simp⟩
  · exact List.cons_lt_cons_iff.2 (.inr ⟨rfl, hlt⟩)
  · rw [List.mem_map]
    constructor
    · rintro ⟨⟨way, y⟩, hy, hpx⟩
      cases hpx
      exact ⟨way, rfl, (hmem way y).1 hy⟩
    · rintro ⟨way, rfl, hx⟩
      exact ⟨(way, x), (hmem way x).2 hx, rfl⟩

/-- What is in order inside two parts is in order inside one and then the other. -/
theorem InOrder.pair (h : InOrder At xs) (h' : InOrder At' ys) :
    InOrder (fun p x => (∃ way, p = 0 :: way ∧ At way x) ∨ ∃ way, p = 1 :: way ∧ At' way x)
      (xs ++ ys) := by
  refine (h.enter 0).append (h'.enter 1) ?_
  rintro p x q y ⟨way, rfl, -⟩ ⟨way', rfl, -⟩
  exact List.cons_lt_cons_iff.2 (.inl Nat.zero_lt_one)

/-- What is in order inside each of some parts is in order part by part. -/
theorem inOrder_flatMap {AtIn : β → Place → α → Prop} {f : β → List α} {parts : List β}
    (h : ∀ b ∈ parts, InOrder (AtIn b) (f b)) :
    InOrder (fun p x => ∃ i b way, parts[i]? = some b ∧ p = i :: way ∧ AtIn b way x)
      (parts.flatMap f) := by
  induction parts using List.reverseRecOn with
  | nil => exact inOrder_nil (by simp)
  | append_singleton parts b ih =>
    have hinit := ih fun b hb => h b (List.mem_append_left _ hb)
    have hlast := (h b (by simp)).enter parts.length
    rw [List.flatMap_append, List.flatMap_singleton]
    refine (hinit.append hlast ?_).congr fun p x => ?_
    · rintro p x q y ⟨i, c, way, hi, rfl, -⟩ ⟨way', rfl, -⟩
      exact List.cons_lt_cons_iff.2 (.inl (List.getElem?_eq_some_iff.1 hi).1)
    · constructor
      · rintro (⟨i, c, way, hi, rfl, hx⟩ | ⟨way, rfl, hx⟩)
        · have hlt := (List.getElem?_eq_some_iff.1 hi).1
          exact ⟨i, c, way, by rw [List.getElem?_append_left hlt, hi], rfl, hx⟩
        · exact ⟨parts.length, b, way, by simp, rfl, hx⟩
      · rintro ⟨i, c, way, hi, rfl, hx⟩
        by_cases hlt : i < parts.length
        · rw [List.getElem?_append_left hlt] at hi
          exact .inl ⟨i, c, way, hi, rfl, hx⟩
        · -- past the others only the last part is left
          rw [List.getElem?_append_right (by omega), List.getElem?_singleton] at hi
          split at hi
          · cases hi
            exact .inr ⟨way, by rw [show i = parts.length by omega], hx⟩
          · cases hi

theorem InOrder.filterMap (h : InOrder At xs) (g : α → Option β) :
    InOrder (fun p y => ∃ x, At p x ∧ g x = some y) (xs.filterMap g) := by
  obtain ⟨placed, hp, hmem, rfl⟩ := h
  refine ⟨placed.filterMap fun e => (g e.2).map (e.1, ·), ?_, fun p y => ?_, ?_⟩
  · refine hp.filterMap _ fun a b hab c hc d hd => ?_
    obtain ⟨-, -, rfl⟩ := Option.map_eq_some_iff.1 hc
    obtain ⟨-, -, rfl⟩ := Option.map_eq_some_iff.1 hd
    exact hab
  · rw [List.mem_filterMap]
    constructor
    · rintro ⟨⟨q, x⟩, hx, hy⟩
      obtain ⟨y', hy', he⟩ := Option.map_eq_some_iff.1 hy
      cases he
      exact ⟨x, (hmem q x).1 hx, hy'⟩
    · rintro ⟨x, hx, hy⟩
      exact ⟨(p, x), (hmem p x).2 hx, by simp [hy]⟩
  · rw [List.map_filterMap, List.filterMap_map]
    congr 1
    funext e
    cases hg : g e.2 <;> simp [hg]

theorem InOrder.map (h : InOrder At xs) (g : α → β) :
    InOrder (fun p y => ∃ x, At p x ∧ g x = y) (xs.map g) := by
  simpa using h.filterMap (some ∘ g)

/-! ## Lists taken apart -/

theorem InOrder.mem_iff (h : InOrder At xs) {x : α} : x ∈ xs ↔ ∃ p, At p x := by
  obtain ⟨placed, -, hmem, rfl⟩ := h
  rw [List.mem_map]
  constructor
  · rintro ⟨⟨p, y⟩, hy, rfl⟩
    exact ⟨p, (hmem p y).1 hy⟩
  · rintro ⟨p, hx⟩
    exact ⟨(p, x), (hmem p x).2 hx, rfl⟩

/-- An entry stands at a place. What stands before that place is what the list has before the entry,
nothing else stands at it, and the rest stands behind. -/
theorem InOrder.cut {before after : List α} {x : α} (h : InOrder At (before ++ x :: after)) :
    ∃ p, At p x ∧ (∀ y ∈ before, ∃ q < p, At q y) ∧
      ∀ q y, At q y → (q < p ∧ y ∈ before) ∨ (q = p ∧ y = x) ∨ p < q := by
  obtain ⟨placed, hp, hmem, hxs⟩ := h
  obtain ⟨placedBefore, rest, rfl, rfl, hrest⟩ := List.map_eq_append_iff.1 hxs
  obtain ⟨⟨p, x⟩, placedAfter, rfl, rfl, rfl⟩ := List.map_eq_cons_iff.1 hrest
  obtain ⟨-, hafter, hbefore⟩ := List.pairwise_append.1 hp
  refine ⟨p, (hmem p x).1 (by simp), fun y hy => ?_, fun q y hy => ?_⟩
  · obtain ⟨⟨q, y⟩, hq, rfl⟩ := List.mem_map.1 hy
    exact ⟨q, hbefore _ hq (p, x) (by simp), (hmem q y).1 (List.mem_append_left _ hq)⟩
  · rcases List.mem_append.1 ((hmem q y).2 hy) with hq | hq
    · exact .inl ⟨hbefore _ hq (p, x) (by simp), List.mem_map.2 ⟨_, hq, rfl⟩⟩
    · rcases List.mem_cons.1 hq with he | hq
      · cases he
        exact .inr (.inl ⟨rfl, rfl⟩)
      · exact .inr (.inr ((List.pairwise_cons.1 hafter).1 _ hq))

/-- The first entry with a property stands at a place before which nothing has it. -/
theorem InOrder.place_of_firstIn {P : α → Prop} {x : α} (h : InOrder At xs) (hx : FirstIn P xs x) :
    ∃ p, At p x ∧ ∀ q y, At q y → P y → (q = p ∧ y = x) ∨ p < q := by
  obtain ⟨before, after, rfl, -, hbefore⟩ := hx
  obtain ⟨p, hp, -, hothers⟩ := h.cut
  refine ⟨p, hp, fun q y hy hPy => ?_⟩
  rcases hothers q y hy with ⟨-, hm⟩ | hq
  · exact absurd hPy (hbefore y hm)
  · exact hq

/-- A value that comes first in the list before another one stands somewhere before all places of the
other. -/
theorem InOrder.before_of_idxOf_lt [BEq α] [LawfulBEq α] {a b : α} (h : InOrder At xs) (ha : a ∈ xs)
    (hab : xs.idxOf a < xs.idxOf b) : ∃ p, At p a ∧ ∀ q, At q b → p < q := by
  obtain ⟨before, after, rfl, hnew⟩ := List.eq_append_cons_of_mem ha
  have hidx : (before ++ a :: after).idxOf a = before.length := by
    rw [List.idxOf_append, if_neg hnew]
    simp
  obtain ⟨p, hp, -, hothers⟩ := h.cut
  refine ⟨p, hp, fun q hq => ?_⟩
  rcases hothers q b hq with ⟨-, hm⟩ | ⟨-, rfl⟩ | hlt
  · -- a value in front would come first itself
    have hb := List.idxOf_lt_length_of_mem hm
    rw [hidx, List.idxOf_append, if_pos hm] at hab
    omega
  · exact absurd hab (Nat.lt_irrefl _)
  · exact hlt

end InOrder

/-! ## Places in nodes -/

namespace Node

/-- A term stands at a place in another: it is that one, or stands in an argument of the function that
is. -/
inductive TermAt (t : Node) : Place → Node → Prop where
  | self : TermAt t [] t
  | arg {name : String} {args : List Node} {i : Nat} {a : Node} {way : Place} :
    args[i]? = some a → TermAt t way a → TermAt t (i :: way) (fn name args)

/-- A sentence stands at a place in a literal, below negations and disjunctions only. -/
inductive OccursAt (s : Node) : Place → Node → Prop where
  | self : s.isSentence = true → OccursAt s [] s
  | neg {body : Node} {way : Place} : OccursAt s way body → OccursAt s (0 :: way) (neg body)
  | disj {ds : List Node} {i : Nat} {d : Node} {way : Place} :
    ds[i]? = some d → OccursAt s way d → OccursAt s (i :: way) (disj ds)

/-- A node is met at a place on the walk from another: it is that one, stands as a term in one of its
parts, or is met from one of them. -/
inductive MetAt (m : Node) : Place → Node → Prop where
  | self : MetAt m [] m
  | term {n t : Node} {i : Nat} {way : Place} :
    n.termParts[i]? = some t → TermAt m way t → MetAt m (i :: way) n
  | part {n p : Node} {i : Nat} {way : Place} :
    n.parts[i]? = some p → MetAt m way p → MetAt m (i :: way) n

theorem termAt_fn {t : Node} {p : Place} {name : String} {args : List Node} :
    TermAt t p (fn name args) ↔ (p = [] ∧ t = fn name args) ∨
      ∃ i a way, args[i]? = some a ∧ p = i :: way ∧ TermAt t way a := by
  constructor
  · intro h
    cases h with
    | self => exact .inl ⟨rfl, rfl⟩
    | arg ha h => exact .inr ⟨_, _, _, ha, rfl, h⟩
  · rintro (⟨rfl, rfl⟩ | ⟨i, a, way, ha, rfl, h⟩)
    · exact .self
    · exact .arg ha h

theorem termAt_iff_eq {t u : Node} {p : Place} (h : ∀ name args, u ≠ fn name args) :
    TermAt t p u ↔ p = [] ∧ t = u := by
  constructor
  · intro ht
    cases ht with
    | self => exact ⟨rfl, rfl⟩
    | arg _ _ => exact absurd rfl (h _ _)
  · rintro ⟨rfl, rfl⟩
    exact .self

theorem metAt_iff {m n : Node} {p : Place} :
    MetAt m p n ↔ (p = [] ∧ m = n) ∨
      (∃ i t way, n.termParts[i]? = some t ∧ p = i :: way ∧ TermAt m way t) ∨
      ∃ i k way, n.parts[i]? = some k ∧ p = i :: way ∧ MetAt m way k := by
  constructor
  · intro h
    cases h with
    | self => exact .inl ⟨rfl, rfl⟩
    | term ht h => exact .inr (.inl ⟨_, _, _, ht, rfl, h⟩)
    | part hp h => exact .inr (.inr ⟨_, _, _, hp, rfl, h⟩)
  · rintro (⟨rfl, rfl⟩ | ⟨i, t, way, ht, rfl, h⟩ | ⟨i, k, way, hk, rfl, h⟩)
    · exact .self
    · exact .term ht h
    · exact .part hk h

/-- One node with nothing in it is in order. -/
theorem inOrder_self (n : Node) : InOrder (fun p m => p = [] ∧ m = n) [n] :=
  ((inOrder_nil fun _ _ h => h).cons fun _ _ h => h.elim).congr fun _ _ => or_iff_left id

/-! ## The walk is in order -/

theorem inOrder_walkTerm (t : Node) : InOrder (fun p m => TermAt m p t) (t.walkTerm.map Visit.met) := by
  induction t with
  | fn name args ih =>
    rw [walkTerm, walkTerms_eq_flatMap, List.map_cons, List.map_flatMap]
    refine ((inOrder_flatMap ih).cons (p := []) ?_).congr fun p m => termAt_fn.symm
    rintro q m ⟨i, a, way, -, rfl, -⟩
    exact List.nil_lt_cons i way
  | _ =>
    rw [walkTerm, List.map_singleton, Visit.met]
    · exact (inOrder_self _).congr fun p m => (termAt_iff_eq (by simp)).symm
    · simp

theorem inOrder_walk (n : Node) : InOrder (fun p m => MetAt m p n) (n.walk.map Visit.met) := by
  induction n using parts_induct with
  | h n ih =>
    have hterms : InOrder _ (n.termParts.flatMap fun t => t.walkTerm.map Visit.met) :=
      inOrder_flatMap fun t _ => inOrder_walkTerm t
    have hparts := inOrder_flatMap ih
    rw [map_met_walk, walkTerms_eq_flatMap, walkAll_eq_flatMap, List.map_flatMap, List.map_flatMap]
    refine ((hterms.append hparts ?_).cons (p := []) ?_).congr fun p m => metAt_iff.symm
    · -- no node is entered both ways
      rintro p m q k ⟨i, t, -, ht, -⟩ ⟨j, l, -, hl, -⟩
      cases n <;> simp [termParts, parts] at ht hl
    · rintro q m (⟨i, t, way, -, rfl, -⟩ | ⟨i, k, way, -, rfl, -⟩)
      · exact List.nil_lt_cons i way
      · exact List.nil_lt_cons i way

/-! ## Functions and sentences are in order -/

/-- The function that a term is, if it is one. -/
def application? : Node → Option Application
  | fn name args => some ⟨name, args⟩
  | _ => none

theorem application?_eq_some {n : Node} {f : Application} : n.application? = some f ↔ n = f.toNode := by
  cases n with
  | fn name args =>
    cases f
    simp [application?, Application.toNode]
  | _ => simp [application?, Application.toNode]

/-- The functions of a term are those on the walk over it. -/
theorem functions_eq_filterMap (t : Node) :
    t.functions = (t.walkTerm.map Visit.met).filterMap application? := by
  induction t with
  | fn name args ih =>
    rw [functions, functionsIn_eq_flatMap, walkTerm, walkTerms_eq_flatMap, List.map_cons,
      List.map_flatMap, List.filterMap_cons, List.filterMap_flatMap]
    exact congrArg _ (List.flatMap_congr ih)
  | _ => simp [functions, walkTerm, Visit.met, application?]

theorem inOrder_functions (t : Node) :
    InOrder (fun p (f : Application) => TermAt f.toNode p t) t.functions := by
  rw [functions_eq_filterMap]
  refine ((inOrder_walkTerm t).filterMap application?).congr fun p f => ?_
  simp only [application?_eq_some, exists_eq_right]

theorem inOrder_functionsIn (ts : List Node) :
    InOrder (fun p (f : Application) => ∃ i t way, ts[i]? = some t ∧ p = i :: way ∧ TermAt f.toNode way t)
      (functionsIn ts) := by
  rw [functionsIn_eq_flatMap]
  exact inOrder_flatMap fun t _ => inOrder_functions t

theorem occursAt_neg {s body : Node} {p : Place} :
    OccursAt s p (neg body) ↔ ∃ way, p = 0 :: way ∧ OccursAt s way body := by
  constructor
  · intro h
    cases h with
    | self h => cases h
    | neg h => exact ⟨_, rfl, h⟩
  · rintro ⟨way, rfl, h⟩
    exact .neg h

theorem occursAt_disj {s : Node} {ds : List Node} {p : Place} :
    OccursAt s p (disj ds) ↔ ∃ i d way, ds[i]? = some d ∧ p = i :: way ∧ OccursAt s way d := by
  constructor
  · intro h
    cases h with
    | self h => cases h
    | disj hd h => exact ⟨_, _, _, hd, rfl, h⟩
  · rintro ⟨i, d, way, hd, rfl, h⟩
    exact .disj hd h

theorem occursAt_iff_eq {s l : Node} {p : Place} (hn : ∀ body, l ≠ neg body)
    (hd : ∀ ds, l ≠ disj ds) : OccursAt s p l ↔ p = [] ∧ s = l ∧ l.isSentence = true := by
  constructor
  · intro h
    cases h with
    | self h => exact ⟨rfl, rfl, h⟩
    | neg _ => exact absurd rfl (hn _)
    | disj _ _ => exact absurd rfl (hd _)
  · rintro ⟨rfl, rfl, h⟩
    exact .self h

end Node

end GameRules
