/-
The search along edges, turn by turn. Every name that it meets for the first time goes onto the stack
once, and every turn takes one name off; so the names seen are always as many as the turns made and
the names still pending. The search ends, each name that it finds has had its turn, and these names
are all that a chain of edges leads to from a chosen one.
-/
import GameRules.Proofs.Graph.Dependency

namespace GameRules

namespace Search

/-- The search after so many turns, if it gets that far. -/
def turns (es : List Edge) : Nat → Search → Option Search
  | 0, s => some s
  | n + 1, s => (s.turn es).bind (turns es n)

/-! ## Counting turns -/

/-- Meeting a name makes as many names pending as it makes seen. -/
theorem size_meet (s : Search) (x : String) :
    (s.meet x).seen.size + s.pending.length = s.seen.size + (s.meet x).pending.length := by
  by_cases hx : x ∈ s.seen
  · rw [meet_of_mem hx]
  · rw [meet_of_not_mem hx]
    simp only [NameSet.size_insert hx, List.length_cons]
    omega

theorem size_meetAll (s : Search) (xs : List String) :
    (s.meetAll xs).seen.size + s.pending.length = s.seen.size + (s.meetAll xs).pending.length := by
  unfold meetAll
  induction xs generalizing s with
  | nil => rfl
  | cons x xs ih =>
    have hx := size_meet s x
    have hxs := ih (s.meet x)
    rw [List.foldl_cons]
    omega

/-- At first everything seen is pending. -/
theorem size_start (names : List String) (matching : String → Bool) :
    (start names matching).seen.size = (start names matching).pending.length := by
  have h := size_meetAll ⟨.empty, []⟩ (names.filter matching)
  simpa [start, NameSet.size, NameSet.empty] using h

/-- A turn settles one name. -/
theorem size_turn {es : List Edge} {s t : Search} (h : s.turn es = some t) :
    t.seen.size + s.pending.length = s.seen.size + t.pending.length + 1 := by
  obtain ⟨a, rest, hs, rfl⟩ := turn_eq_some_iff.1 h
  have hmet := size_meetAll ⟨s.seen, rest⟩ (Graph.endsFrom es a)
  simp only at hmet
  rw [hs, List.length_cons]
  omega

/-- The search is over after some number of turns. What has been seen by then is what was seen before
and not pending, and one more name for each turn. -/
theorem turns_run (es : List Edge) (s : Search) :
    ∃ n, s.turns es n = some (s.run es) ∧
      s.seen.size + n = (s.run es).seen.size + s.pending.length := by
  fun_induction run es s with
  | case1 s h =>
    have hs := turn_eq_none_iff.1 h
    exact ⟨0, rfl, by simp [hs]⟩
  | case2 s t h ih =>
    obtain ⟨n, hn, hsize⟩ := ih
    have hturn := size_turn h
    refine ⟨n + 1, ?_, by omega⟩
    rw [turns, h, Option.bind_some, hn]

/-- From the start, the search has one turn for each name that it finds. -/
theorem turns_start_run (names : List String) (es : List Edge) (matching : String → Bool) :
    (start names matching).turns es (closure names es matching).size =
      some ((start names matching).run es) := by
  obtain ⟨n, hn, hsize⟩ := turns_run es (start names matching)
  rw [size_start names matching] at hsize
  have hsize' : n = (closure names es matching).size := by
    unfold closure
    omega
  rw [← hsize', hn]

end Search

/-- Whatever the names, the edges and the choice, the search comes to an end: it makes as many turns as
it finds names, and then no name is pending. It has found a name exactly if a chain of edges, of any
length, leads to it from a chosen name; the names on the way need not be chosen, nor be among the
names. -/
theorem closure_ends_with_reachable (names : List String) (es : List Edge)
    (matching : String → Bool) :
    (∃ last : Search,
      (Search.start names matching).turns es (closure names es matching).size = some last ∧
      last.turn es = none ∧ last.seen = closure names es matching) ∧
    ∀ x, x ∈ closure names es matching ↔
      ∃ a ∈ names, matching a = true ∧
        Relation.ReflTransGen (fun b c => (b, c) ∈ es) a x := by
  constructor
  · refine ⟨_, Search.turns_start_run names es matching, ?_, rfl⟩
    exact Search.turn_eq_none_iff.2 (Search.run_pending es _)
  · intro x
    have hpath : ∀ a, Path es a x ↔ Relation.ReflTransGen (fun b c => (b, c) ∈ es) a x :=
      fun a => path_iff_reflTransGen fun _ _ => Iff.rfl
    simp only [mem_closure, hpath]

-- a circle, an edge from a name to itself and one that comes twice
example : (closure ["win", "draw"] [("win", "line"), ("line", "win"), ("line", "line"),
    ("line", "cell"), ("line", "cell"), ("draw", "open")] (· == "win")).toList =
      ["cell", "line", "win"] := by
  cbv

end GameRules
