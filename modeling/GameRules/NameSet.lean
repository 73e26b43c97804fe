/-
Finite sets of names, held in increasing order of code points. A set has one representation, and
listing it needs no sorting.
-/
namespace GameRules

/-- A set of names as its members in increasing order. -/
structure NameSet where
  toList : List String
  increasing : toList.Pairwise (· < ·)
  deriving DecidableEq

namespace NameSet

/-! ## Members -/

instance : Membership String NameSet := ⟨fun s x => x ∈ s.toList⟩

theorem mem_def {x : String} {s : NameSet} : x ∈ s ↔ x ∈ s.toList := Iff.rfl

instance (x : String) (s : NameSet) : Decidable (x ∈ s) :=
  inferInstanceAs (Decidable (x ∈ s.toList))

/-! ## Operations -/

def empty : NameSet := ⟨[], .nil⟩

@[simp] theorem not_mem_empty (x : String) : x ∉ empty := by simp [empty, mem_def]

/-- A name put into its place in an increasing list. -/
def place (x : String) : List String → List String
  | [] => [x]
  | y :: ys => if x < y then x :: y :: ys else if x = y then y :: ys else y :: place x ys

theorem mem_place {x z : String} {ys : List String} : z ∈ place x ys ↔ z = x ∨ z ∈ ys := by
  induction ys with
  | nil => simp [place]
  | cons y ys ih =>
    unfold place
    split
    · simp
    · split
      · rename_i e; subst e; simp
      · simp only [List.mem_cons, ih]
        constructor
        · rintro (h | h | h) <;> simp [h]
        · rintro (h | h | h) <;> simp [h]

theorem place_increasing (x : String) {ys : List String} (h : ys.Pairwise (· < ·)) :
    (place x ys).Pairwise (· < ·) := by
  induction ys with
  | nil => simp [place]
  | cons y ys ih =>
    obtain ⟨hy, hys⟩ := List.pairwise_cons.1 h
    unfold place
    split
    · rename_i hlt
      refine List.pairwise_cons.2 ⟨fun z hz => ?_, h⟩
      rcases List.mem_cons.1 hz with rfl | hz
      · exact hlt
      · exact String.lt_trans hlt (hy z hz)
    · split
      · exact h
      · rename_i hlt hne
        refine List.pairwise_cons.2 ⟨fun z hz => ?_, ih hys⟩
        rcases mem_place.1 hz with rfl | hz
        · exact Std.lt_of_le_of_ne (String.not_lt.1 hlt) (Ne.symm hne)
        · exact hy z hz

theorem length_place {x : String} {ys : List String} (h : x ∉ ys) :
    (place x ys).length = ys.length + 1 := by
  induction ys with
  | nil => rfl
  | cons y ys ih =>
    rw [List.mem_cons, not_or] at h
    obtain ⟨hne, hys⟩ := h
    unfold place
    split
    · rfl
    · rw [List.length_cons, List.length_cons, ih hys]

def insert (x : String) (s : NameSet) : NameSet :=
  ⟨place x s.toList, place_increasing x s.increasing⟩

@[simp] theorem mem_insert {x z : String} {s : NameSet} : z ∈ s.insert x ↔ z = x ∨ z ∈ s :=
  mem_place

def size (s : NameSet) : Nat := s.toList.length

theorem size_insert {x : String} {s : NameSet} (h : x ∉ s) : (s.insert x).size = s.size + 1 :=
  length_place h

def ofList (xs : List String) : NameSet := xs.foldr insert empty

@[simp] theorem mem_ofList {z : String} {xs : List String} : z ∈ ofList xs ↔ z ∈ xs := by
  induction xs with
  | nil => exact iff_of_false (not_mem_empty z) (by simp)
  | cons x xs ih =>
    rw [List.mem_cons, ← ih]
    exact mem_insert

def union (s t : NameSet) : NameSet := s.toList.foldr insert t

@[simp] theorem mem_union {z : String} {s t : NameSet} : z ∈ s.union t ↔ z ∈ s ∨ z ∈ t := by
  unfold union
  rw [mem_def (s := s)]
  induction s.toList with
  | nil => simp
  | cons x xs ih =>
    rw [List.foldr_cons, mem_insert, ih, List.mem_cons, or_assoc]

theorem mem_foldl_union {z : String} {ss : List NameSet} {s : NameSet} :
    z ∈ ss.foldl union s ↔ z ∈ s ∨ ∃ t ∈ ss, z ∈ t := by
  induction ss generalizing s with
  | nil => simp
  | cons t ss ih =>
    rw [List.foldl_cons, ih, mem_union, or_assoc]
    simp only [List.mem_cons, or_and_right, exists_or, exists_eq_left]

end NameSet

end GameRules
