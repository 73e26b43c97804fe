/-
The faults of misplaced keywords can be put into words. A message that offers alternatives cannot be
written without any. The check of the placing offers the markers of the turn, or the moves, only where
a keyword has come to depend on one of them; so there is always one to offer, even in a table that
asks for independence and names nothing to be independent of.
-/
import GameRules.Proofs.Keyword.Placing

namespace GameRules

/-! ## Faults with a message -/

namespace Fault

/-- A fault has a message exactly if there is something in what the message is to offer. -/
theorem exists_message?_iff {f : Fault} :
    (∃ text, f.message? = some text) ↔ ∀ offered, f.offered? = some offered → offered ≠ [] := by
  have hmap : ∀ (name : String) (offered : List String),
      (∃ text, (Keyword.alternatives? offered).map (dependenceMessage name) = some text) ↔
        offered ≠ [] := fun name offered => by
    rw [← Option.ne_none_iff_exists', ne_eq, Option.map_eq_none_iff, Keyword.alternatives?_eq_none_iff]
  cases f with
  | turnDependence name markers => simpa [message?, offered?] using hmap name markers
  | actionDependence name actions => simpa [message?, offered?] using hmap name actions
  | _ => exact iff_of_true ⟨_, rfl⟩ nofun

/-- Only the two faults about dependence are to offer alternatives. -/
theorem exists_message?_of_code {f : Fault} (h : f.code ∉ ["E173", "E174"]) :
    ∃ text, f.message? = some text := by
  cases f with
  | turnDependence name markers => exact absurd (List.mem_cons_self ..) h
  | actionDependence name actions => exact absurd (List.mem_cons_of_mem _ (List.mem_cons_self ..)) h
  | _ => exact ⟨_, rfl⟩

theorem message_of_message? {f : Fault} {text : String} (h : f.message? = some text) :
    f.message = text := by
  rw [message, h, Option.getD_some]

end Fault

/-! ## Faults of the placing -/

namespace Keyword

namespace Law

variable {g : Graph} {names : List String} {ks : List Keyword}

/-- Where something depends on a keyword with a placement, the table has such a keyword. -/
theorem DependsOn.placed_ne_nil {q : Placement} {name : String} (h : DependsOn g names ks q name) :
    placed q ks ≠ [] := by
  obtain ⟨m, hm, hq, -⟩ := h
  exact List.ne_nil_of_mem (mem_placed.2 ⟨m, hm, hq, rfl⟩)

theorem Blames.brokenBy {law : Law} {k : Keyword} (h : law.Blames g names ks k) :
    law.BrokenBy g names ks k := by
  cases law with
  | bodies => exact h.2.1
  | _ => exact FirstIn.holds h

/-- A law that is broken has something to offer in the message about it. -/
theorem BrokenBy.offered_ne_nil {law : Law} {k : Keyword} (h : law.BrokenBy g names ks k)
    {offered : List String} (ho : (law.fault ks k.name).offered? = some offered) : offered ≠ [] := by
  cases law with
  | turn =>
    cases ho
    exact DependsOn.placed_ne_nil h.2
  | moves =>
    cases ho
    exact DependsOn.placed_ne_nil h.2
  | _ => cases ho

end Law

section Check

variable {g : Graph} {names : List String} {ks : List Keyword}

theorem offered_ne_nil_of_lawFault? {f : Fault} (h : lawFault? g names ks = some f)
    {offered : List String} (ho : f.offered? = some offered) : offered ≠ [] := by
  obtain ⟨law, k, -, hk, rfl⟩ := lawFault?_eq_some_iff.1 h
  exact hk.brokenBy.offered_ne_nil ho

theorem exists_message?_of_checkPlacing {f : Fault}
    (h : (checkPlacing g names ks).outcome = .error (.fault f)) : ∃ text, f.message? = some text := by
  rw [checkPlacing_outcome] at h
  cases hf : lawFault? g names ks with
  | none =>
    rw [hf] at h
    cases h
  | some f' =>
    rw [hf] at h
    cases h
    exact Fault.exists_message?_iff.2 fun _ ho => offered_ne_nil_of_lawFault? hf ho

end Check

/-- For every graph, all names and every table, the check of the placing passes or finds a fault that
has a message, and it ends in no other way. What the message is to offer is never empty, so its last
name can always be taken, and the diagnostic of the fault tells this message. -/
theorem checkPlacing_finds_words (g : Graph) (names : List String) (ks : List Keyword) :
    (checkPlacing g names ks).outcome = .ok () ∨
      ∃ f text, (checkPlacing g names ks).outcome = .error (.fault f) ∧
        (∀ offered, f.offered? = some offered → offered ≠ []) ∧
        f.message? = some text ∧ f.diagnostic.message = text := by
  rw [checkPlacing_outcome]
  cases hf : lawFault? g names ks with
  | none => exact .inl rfl
  | some f =>
    have hoffered : ∀ offered, f.offered? = some offered → offered ≠ [] :=
      fun _ ho => offered_ne_nil_of_lawFault? hf ho
    obtain ⟨text, htext⟩ := Fault.exists_message?_iff.2 hoffered
    exact .inr ⟨f, text, rfl, hoffered, htext, Fault.message_of_message? htext⟩

end Keyword

example : (Fault.turnDependence "init" []).message? = none := rfl

example : (Fault.turnDependence "init" ["true", "next", "does"]).message? =
    some "A init relation should never have a dependency on a true, next, or does sentence." := by
  decide

end GameRules
