/-
What edges lead to. The search keeps the names it has seen and a stack of those whose edges it has
still to follow; each turn takes one name off the stack and puts on the new ends of its edges. Main
statement: it finds exactly the ends of paths that begin at a chosen name.
-/
import GameRules.Graph.Basic

namespace GameRules

/-- A path along edges, of any length. -/
inductive Path (es : List Edge) : String → String → Prop where
  | refl (a : String) : Path es a a
  | step {a b c : String} : (a, b) ∈ es → Path es b c → Path es a c

namespace Path

theorem mono {es fs : List Edge} (h : ∀ e ∈ es, e ∈ fs) {a b : String} (p : Path es a b) :
    Path fs a b := by
  induction p with
  | refl a => exact .refl a
  | step he _ ih => exact .step (h _ he) ih

theorem trans {es : List Edge} {a b c : String} (p : Path es a b) (q : Path es b c) :
    Path es a c := by
  induction p with
  | refl _ => exact q
  | step he _ ih => exact .step he (ih q)

/-- A path that begins in a closed set ends in it. -/
theorem mem_of_closed {es : List Edge} {S : NameSet} (hS : ∀ e ∈ es, e.1 ∈ S → e.2 ∈ S)
    {a b : String} (p : Path es a b) (ha : a ∈ S) : b ∈ S := by
  induction p with
  | refl _ => exact ha
  | step he _ ih => exact ih (hS _ he ha)

end Path

/-! ## The search -/

/-- A search under way: the names seen so far, and those of them whose edges are still to be followed,
the last one seen first. -/
structure Search where
  seen : NameSet
  pending : List String
  deriving DecidableEq

namespace Search

/-- A name is met. It is seen from now on, and its edges are to be followed if it is new. -/
def meet (s : Search) (x : String) : Search :=
  if x ∈ s.seen then s else ⟨s.seen.insert x, x :: s.pending⟩

/-- Names are met one after another. -/
def meetAll (s : Search) (xs : List String) : Search := xs.foldl meet s

/-- The search begins with the names that match. -/
def start (names : List String) (matching : String → Bool) : Search :=
  meetAll ⟨.empty, []⟩ (names.filter matching)

/-- One turn takes up a pending name and meets the ends of its edges. There is none if no name is
pending. -/
def turn (es : List Edge) (s : Search) : Option Search :=
  match s.pending with
  | [] => none
  | a :: rest => some (meetAll ⟨s.seen, rest⟩ (Graph.endsFrom es a))

section Meeting

variable {s : Search} {x y : String}

theorem meet_of_mem (h : x ∈ s.seen) : s.meet x = s := if_pos h

theorem meet_of_not_mem (h : x ∉ s.seen) : s.meet x = ⟨s.seen.insert x, x :: s.pending⟩ := if_neg h

theorem mem_seen_meet : y ∈ (s.meet x).seen ↔ y ∈ s.seen ∨ y = x := by
  by_cases h : x ∈ s.seen
  · rw [meet_of_mem h]
    constructor
    · exact .inl
    · rintro (hy | rfl)
      · exact hy
      · exact h
  · rw [meet_of_not_mem h, NameSet.mem_insert, or_comm]

theorem mem_pending_meet : y ∈ (s.meet x).pending ↔ y ∈ s.pending ∨ y = x ∧ y ∉ s.seen := by
  by_cases h : x ∈ s.seen
  · rw [meet_of_mem h]
    refine (or_iff_left ?_).symm
    rintro ⟨rfl, hy⟩
    exact hy h
  · rw [meet_of_not_mem h, List.mem_cons, or_comm]
    refine or_congr_right (iff_self_and.2 ?_)
    rintro rfl
    exact h

theorem mem_seen_meetAll {xs : List String} : y ∈ (s.meetAll xs).seen ↔ y ∈ s.seen ∨ y ∈ xs := by
  unfold meetAll
  induction xs generalizing s with
  | nil => simp
  | cons x xs ih => rw [List.foldl_cons, ih, mem_seen_meet, List.mem_cons, or_assoc]

theorem mem_pending_meetAll {xs : List String} :
    y ∈ (s.meetAll xs).pending ↔ y ∈ s.pending ∨ y ∈ xs ∧ y ∉ s.seen := by
  unfold meetAll
  induction xs generalizing s with
  | nil => simp
  | cons x xs ih =>
    rw [List.foldl_cons, ih, mem_pending_meet, mem_seen_meet, List.mem_cons, not_or]
    by_cases hx : y = x
    · simp [hx]
    · simp [hx]

end Meeting

theorem turn_eq_none_iff {es : List Edge} {s : Search} : s.turn es = none ↔ s.pending = [] := by
  unfold turn
  split <;> simp [*]

theorem turn_eq_some_iff {es : List Edge} {s t : Search} : s.turn es = some t ↔
    ∃ a rest, s.pending = a :: rest ∧ meetAll ⟨s.seen, rest⟩ (Graph.endsFrom es a) = t := by
  unfold turn
  split
  · simp [*]
  · rename_i a rest hs
    rw [hs, Option.some.injEq]
    constructor
    · exact fun ht => ⟨a, rest, rfl, ht⟩
    · rintro ⟨_, _, hs', ht⟩
      cases hs'
      exact ht

/-! ## The search ends -/

/-- What is left to do: the ends of edges not seen yet, and the pending names. A turn takes one name
off and puts on only what it takes from the unseen ends. -/
def remaining (es : List Edge) (s : Search) : Nat :=
  (es.filter (·.2 ∉ s.seen)).length + s.pending.length

theorem remaining_meet_le {es : List Edge} {s : Search} {a x : String} (h : (a, x) ∈ es) :
    (s.meet x).remaining es ≤ s.remaining es := by
  by_cases hx : x ∈ s.seen
  · exact Nat.le_of_eq (congrArg (remaining es) (meet_of_mem hx))
  · have hfewer : (es.filter (·.2 ∉ s.seen.insert x)).length < (es.filter (·.2 ∉ s.seen)).length := by
      have hsub : es.filter (·.2 ∉ s.seen.insert x) =
          (es.filter (·.2 ∉ s.seen)).filter (·.2 ≠ x) := by
        rw [List.filter_filter]
        exact List.filter_congr fun e _ => by simp [not_or]
      rw [hsub, List.length_filter_lt_length_iff_exists]
      exact ⟨(a, x), by simp [h, hx], by simp⟩
    rw [meet_of_not_mem hx]
    simp only [remaining, List.length_cons]
    omega

theorem remaining_meetAll_le {es : List Edge} {s : Search} {a : String} {xs : List String}
    (h : ∀ x ∈ xs, (a, x) ∈ es) : (s.meetAll xs).remaining es ≤ s.remaining es := by
  unfold meetAll
  induction xs generalizing s with
  | nil => exact Nat.le_refl _
  | cons x xs ih =>
    have hx : (a, x) ∈ es := h x (by simp)
    exact Nat.le_trans (ih fun y hy => h y (by simp [hy])) (remaining_meet_le hx)

theorem remaining_turn_lt {es : List Edge} {s t : Search} (h : s.turn es = some t) :
    t.remaining es < s.remaining es := by
  obtain ⟨a, rest, hs, rfl⟩ := turn_eq_some_iff.1 h
  have hle : (meetAll ⟨s.seen, rest⟩ (Graph.endsFrom es a)).remaining es ≤
      remaining es ⟨s.seen, rest⟩ := remaining_meetAll_le fun x hx => Graph.mem_endsFrom.1 hx
  have hlt : remaining es ⟨s.seen, rest⟩ < s.remaining es := by simp [remaining, hs]
  exact Nat.lt_of_le_of_lt hle hlt

/-- Turns for as long as there is one. -/
def run (es : List Edge) (s : Search) : Search :=
  match _h : s.turn es with
  | none => s
  | some t => t.run es
termination_by s.remaining es
decreasing_by exact remaining_turn_lt _h

theorem run_pending (es : List Edge) (s : Search) : (s.run es).pending = [] := by
  fun_induction run es s with
  | case1 s h => exact turn_eq_none_iff.1 h
  | case2 _ _ _ ih => exact ih

/-- What each turn keeps, the whole search keeps. -/
theorem run_keeps {es : List Edge} {P : Search → Prop}
    (hturn : ∀ s t : Search, P s → s.turn es = some t → P t) {s : Search} (hs : P s) : P (s.run es) := by
  fun_induction run es s with
  | case1 => exact hs
  | case2 s t h ih => exact ih (hturn s t hs h)

/-! ## What the search finds -/

/-- A search from some names. All that is seen lies on a path from one of them, and the edges of a seen
name lead to seen names unless the name is still pending. -/
structure From (es : List Edge) (chosen : List String) (s : Search) : Prop where
  begins : ∀ a ∈ chosen, a ∈ s.seen
  sound : ∀ x ∈ s.seen, ∃ a ∈ chosen, Path es a x
  pending : ∀ x ∈ s.pending, x ∈ s.seen
  followed : ∀ e ∈ es, e.1 ∈ s.seen → e.1 ∉ s.pending → e.2 ∈ s.seen

theorem from_start (es : List Edge) (names : List String) (matching : String → Bool) :
    From es (names.filter matching) (start names matching) := by
  have hseen : ∀ x, x ∈ (start names matching).seen ↔ x ∈ names.filter matching := fun x => by
    rw [start, mem_seen_meetAll, or_iff_right (NameSet.not_mem_empty x)]
  have hpending : ∀ x, x ∈ (start names matching).pending ↔ x ∈ names.filter matching := fun x => by
    rw [start, mem_pending_meetAll, or_iff_right List.not_mem_nil,
      and_iff_left (NameSet.not_mem_empty x)]
  refine ⟨fun a ha => (hseen a).2 ha, fun x hx => ⟨x, (hseen x).1 hx, .refl x⟩,
    fun x hx => (hseen x).2 ((hpending x).1 hx), fun e _ hs hp => ?_⟩
  exact absurd ((hpending e.1).2 ((hseen e.1).1 hs)) hp

theorem From.turn {es : List Edge} {chosen : List String} {s t : Search} (h : From es chosen s)
    (ht : s.turn es = some t) : From es chosen t := by
  obtain ⟨a, rest, hs, rfl⟩ := turn_eq_some_iff.1 ht
  have ha : a ∈ s.seen := h.pending a (by simp [hs])
  refine ⟨fun b hb => mem_seen_meetAll.2 (.inl (h.begins b hb)), fun x hx => ?_, fun x hx => ?_,
    fun e he hseen hpending => mem_seen_meetAll.2 ?_⟩
  · rcases mem_seen_meetAll.1 hx with hx | hx
    · exact h.sound x hx
    · obtain ⟨b, hb, p⟩ := h.sound a ha
      exact ⟨b, hb, p.trans (.step (Graph.mem_endsFrom.1 hx) (.refl x))⟩
  · rcases mem_pending_meetAll.1 hx with hx | ⟨hx, -⟩
    · exact mem_seen_meetAll.2 (.inl (h.pending x (by simp [hs, hx])))
    · exact mem_seen_meetAll.2 (.inr hx)
  · rw [mem_pending_meetAll, not_or] at hpending
    -- a name met in this turn for the first time would be pending
    have hold : e.1 ∈ s.seen := by
      rcases mem_seen_meetAll.1 hseen with hold | hmet
      · exact hold
      · exact Decidable.byContradiction fun hnew => hpending.2 ⟨hmet, hnew⟩
    by_cases hea : e.1 = a
    · exact .inr (Graph.mem_endsFrom.2 (hea ▸ he))
    · exact .inl (h.followed e he hold (by simp [hs, hea, hpending.1]))

end Search

/-- The names that match, and all that edges lead to from them. -/
def closure (names : List String) (es : List Edge) (matching : String → Bool) : NameSet :=
  ((Search.start names matching).run es).seen

theorem mem_closure {names : List String} {es : List Edge} {matching : String → Bool} {x : String} :
    x ∈ closure names es matching ↔ ∃ a ∈ names, matching a = true ∧ Path es a x := by
  have h : Search.From es (names.filter matching) ((Search.start names matching).run es) :=
    Search.run_keeps (fun _ _ hs ht => hs.turn ht) (Search.from_start es names matching)
  constructor
  · intro hx
    obtain ⟨a, ha, p⟩ := h.sound x hx
    obtain ⟨ha, hm⟩ := List.mem_filter.1 ha
    exact ⟨a, ha, hm, p⟩
  · rintro ⟨a, ha, hm, p⟩
    refine p.mem_of_closed (fun e he hs => h.followed e he hs ?_)
      (h.begins a (List.mem_filter.2 ⟨ha, hm⟩))
    rw [Search.run_pending]
    exact List.not_mem_nil

/-! ## Up and down the definitions -/

namespace Graph

/-- The matching names and all that their definitions come to use. -/
def dependencies (g : Graph) (names : List String) (matching : String → Bool) : NameSet :=
  closure names g.edges matching

/-- The matching names and all whose definitions come to use them. -/
def dependents (g : Graph) (names : List String) (matching : String → Bool) : NameSet :=
  closure names g.reversed matching

/-- For each of some names, the name itself and all that its definition comes to use. -/
def ancestors (g : Graph) (names : NameSet) : List (String × NameSet) :=
  names.toList.map fun n => (n, g.dependencies names.toList (· == n))

end Graph

end GameRules
