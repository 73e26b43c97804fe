/-
The order of a table. Names stand in it in the order in which each was read for the first time:
a name that comes again keeps its place, and a new one goes to the end.
-/
import GameRules.Proofs.Arity.Uniform

namespace GameRules

namespace ArityTable

/-! ## Places of first reading -/

/-- A table lists the names that have been read, each after all that were read before it. -/
structure ListsInOrder (t : ArityTable) (read : List String) : Prop where
  mem : ∀ name, name ∈ t.names ↔ name ∈ read
  order : t.names.Pairwise fun a b => read.idxOf a < read.idxOf b

theorem listsInOrder_empty : ListsInOrder .empty [] :=
  ⟨by simp [names, empty], List.Pairwise.nil⟩

/-- What is read later leaves the places of first reading as they are. -/
theorem ListsInOrder.order_append {t : ArityTable} {read : List String} (h : t.ListsInOrder read)
    (more : List String) :
    t.names.Pairwise fun a b => (read ++ more).idxOf a < (read ++ more).idxOf b := by
  refine h.order.imp_of_mem fun {a b} ha hb hab => ?_
  rw [List.idxOf_append, if_pos ((h.mem a).1 ha), List.idxOf_append, if_pos ((h.mem b).1 hb)]
  exact hab

theorem ListsInOrder.record {t t' : ArityTable} {read : List String} {name : String} {k : Int}
    (h : t.ListsInOrder read) (hr : t.record name k = .ok t') : t'.ListsInOrder (read ++ [name]) := by
  have hold := h.order_append [name]
  unfold ArityTable.record at hr
  split at hr
  · rename_i hnone
    cases hr
    have hnew : name ∉ read := fun hm => arity?_eq_none_iff.1 hnone ((h.mem name).2 hm)
    have hnames : names ⟨t.entries ++ [(name, k)]⟩ = t.names ++ [name] := by simp [names]
    refine ⟨fun n => ?_, ?_⟩
    · rw [hnames, List.mem_append, List.mem_append, h.mem]
    · rw [hnames, List.pairwise_append]
      refine ⟨hold, List.pairwise_singleton _ _, fun a ha b hb => ?_⟩
      rw [List.mem_singleton.1 hb]
      -- the new name is read where everything read so far ends
      have ha' : a ∈ read := (h.mem a).1 ha
      have hlast : (read ++ [name]).idxOf name = read.length := by
        rw [List.idxOf_append, if_neg hnew]
        simp
      rw [hlast, List.idxOf_append, if_pos ha']
      exact List.idxOf_lt_length_of_mem ha'
  · rename_i previous hsome
    split at hr
    · cases hr
      have hmem : name ∈ read := (h.mem name).1 (mem_names_of_arity? hsome)
      refine ⟨fun n => ?_, hold⟩
      rw [h.mem, List.mem_append, List.mem_singleton]
      constructor
      · exact .inl
      · rintro (hn | rfl)
        · exact hn
        · exact hmem
    · cases hr

theorem ListsInOrder.recordAll {t t' : ArityTable} {read : List String} {rs : List Reading}
    (h : t.ListsInOrder read) (hr : t.recordAll rs = .ok t') :
    t'.ListsInOrder (read ++ rs.map (·.1)) := by
  induction rs generalizing t read with
  | nil =>
    cases hr
    simpa using h
  | cons r rs ih =>
    obtain ⟨t₁, h₁, hr⟩ := recordAll_cons.1 hr
    simpa using ih (h.record h₁) hr

end ArityTable

end GameRules
