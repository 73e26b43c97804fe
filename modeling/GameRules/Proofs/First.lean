/-
What stands first in a list. A check that stops at the first fault is exact about two things: that
there is a fault, and that nothing before it is one. Both are said here by cutting the list at the
fault, and the searches of the library are read in these words.
-/
namespace GameRules

variable {α β : Type}

/-- A member of a list with a property that no member before it has. -/
def FirstIn (P : α → Prop) (xs : List α) (x : α) : Prop :=
  ∃ before after, xs = before ++ x :: after ∧ P x ∧ ∀ y ∈ before, ¬ P y

/-- What the first member of a list that reports anything reports. -/
def FirstOf (R : α → β → Prop) (xs : List α) (b : β) : Prop :=
  ∃ a, FirstIn (fun a => ∃ c, R a c) xs a ∧ R a b

theorem FirstIn.holds {P : α → Prop} {xs : List α} {x : α} (h : FirstIn P xs x) : P x := by
  obtain ⟨_, _, _, hx, _⟩ := h
  exact hx

theorem findSome?_cons_eq_or (f : α → Option β) (x : α) (xs : List α) :
    (x :: xs).findSome? f = (f x).or (xs.findSome? f) := by
  rw [List.findSome?_cons]
  cases f x <;> rfl

theorem find?_eq_some_iff_firstIn {p : α → Bool} {xs : List α} {x : α} :
    xs.find? p = some x ↔ FirstIn (p · = true) xs x := by
  rw [List.find?_eq_some_iff_append]
  simp only [FirstIn, Bool.not_eq_true', Bool.not_eq_true]
  constructor
  · rintro ⟨hx, before, after, hxs, hbefore⟩
    exact ⟨before, after, hxs, hx, hbefore⟩
  · rintro ⟨before, after, hxs, hx, hbefore⟩
    exact ⟨hx, before, after, hxs, hbefore⟩

theorem findSome?_eq_some_iff_firstOf {f : α → Option β} {xs : List α} {b : β} :
    xs.findSome? f = some b ↔ FirstOf (fun a c => f a = some c) xs b := by
  rw [List.findSome?_eq_some_iff]
  simp only [FirstOf, FirstIn, ← Option.ne_none_iff_exists', ne_eq, Decidable.not_not]
  constructor
  · rintro ⟨before, a, after, hxs, ha, hbefore⟩
    exact ⟨a, ⟨before, after, hxs, by simp [ha], hbefore⟩, ha⟩
  · rintro ⟨a, ⟨before, after, hxs, -, hbefore⟩, ha⟩
    exact ⟨before, a, after, hxs, ha, hbefore⟩

/-- A list without repetitions grows by what it does not hold yet. -/
theorem eraseDups_snoc [BEq α] [LawfulBEq α] [DecidableEq α] (xs : List α) (x : α) :
    (xs ++ [x]).eraseDups = if x ∈ xs then xs.eraseDups else xs.eraseDups ++ [x] := by
  rw [List.eraseDups_append, List.removeAll, List.filter_cons, List.filter_nil]
  by_cases h : x ∈ xs
  · simp [h]
  · simp [h, List.eraseDups_cons]

end GameRules
