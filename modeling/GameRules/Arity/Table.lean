/-
An arity table: names with the arity each had when it was first met, in order of first meeting.
Recording never changes an entry. A name met again with another arity is a conflict.
-/
namespace GameRules

/-- Names and arities, the oldest entry first. -/
structure ArityTable where
  entries : List (String × Int)
  deriving DecidableEq

namespace ArityTable

def empty : ArityTable := ⟨[]⟩

def names (t : ArityTable) : List String := t.entries.map (·.1)

def arity? (t : ArityTable) (name : String) : Option Int := t.entries.lookup name

/-- Records a name with an arity, or tells the other arity that it had before. -/
def record (t : ArityTable) (name : String) (arity : Int) : Except Int ArityTable :=
  match t.arity? name with
  | none => .ok ⟨t.entries ++ [(name, arity)]⟩
  | some previous => if previous = arity then .ok t else .error previous

/-! ## Laws -/

theorem arity?_eq_none_iff {t : ArityTable} {name : String} :
    t.arity? name = none ↔ name ∉ t.names := by
  unfold arity? names
  rw [List.lookup_eq_none_iff, List.mem_map]
  constructor
  · rintro h ⟨e, he, rfl⟩
    simpa using h e he
  · intro h e he
    simpa using fun hn : name = e.1 => h ⟨e, he, hn.symm⟩

theorem mem_names_of_arity? {t : ArityTable} {name : String} {arity : Int}
    (h : t.arity? name = some arity) : name ∈ t.names := by
  by_cases hm : name ∈ t.names
  · exact hm
  · rw [arity?_eq_none_iff.2 hm] at h
    cases h

/-- What is recorded is found, and what was there before stays in place. -/
theorem record_ok {t t' : ArityTable} {name : String} {arity : Int}
    (h : t.record name arity = .ok t') :
    t'.arity? name = some arity ∧ t.entries <+: t'.entries := by
  unfold record at h
  split at h
  · rename_i hn
    cases h
    refine ⟨?_, List.prefix_append _ _⟩
    unfold arity? at hn ⊢
    rw [List.lookup_append, hn]
    simp
  · rename_i previous hp
    split at h
    · rename_i he
      cases h
      exact ⟨he ▸ hp, List.prefix_refl _⟩
    · cases h

/-- A refusal tells the arity the name has in the table, which is another one. -/
theorem record_error {t : ArityTable} {name : String} {arity previous : Int}
    (h : t.record name arity = .error previous) :
    t.arity? name = some previous ∧ previous ≠ arity := by
  unfold record at h
  split at h
  · cases h
  · rename_i p hp
    split at h
    · cases h
    · rename_i hne
      cases h
      exact ⟨hp, hne⟩

/-- Names stay unique. -/
theorem record_nodup {t t' : ArityTable} {name : String} {arity : Int} (hn : t.names.Nodup)
    (h : t.record name arity = .ok t') : t'.names.Nodup := by
  unfold record at h
  split at h
  · rename_i hnone
    cases h
    have hmem := arity?_eq_none_iff.1 hnone
    unfold names at hn hmem ⊢
    rw [List.map_append, List.nodup_append]
    refine ⟨hn, by simp, ?_⟩
    intro a ha b hb
    simp only [List.map_cons, List.map_nil, List.mem_singleton] at hb
    rintro rfl
    exact hmem (hb ▸ ha)
  · split at h
    · cases h; exact hn
    · cases h

end ArityTable

end GameRules
