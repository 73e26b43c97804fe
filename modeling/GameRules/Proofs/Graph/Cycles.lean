/-
Negative cycles of any graph. The search for a negative edge on a cycle is given some names, and adds
all names of the graph to them; so its verdict is the same whatever it is given. It goes through the
starts of negative edges from the last to the first, and these stand in the order in which a negative
use was first noted of each. Hence the edge that it reports starts at the name, of all that start such
an edge, of which a negative use was noted last for the first time.
-/
import GameRules.Proofs.First
import GameRules.Proofs.Graph.Session
import GameRules.Proofs.Graph.Strata
import Mathlib.Data.List.Find
import Mathlib.Data.List.Induction

namespace GameRules.Graph

/-! ## The order of first negative uses -/

/-- The name whose definition a note says to use another one below a negation. -/
def Update.negates? : Update → Option String
  | use name _ true => some name
  | _ => none

/-- Among the names with a property, a name is the one that notes negate for the first time last: when
they first negate it, they have negated all others before. -/
def NegatedLast (us : List Update) (P : String → Prop) (a : String) : Prop :=
  P a ∧ ∃ before u after, us = before ++ u :: after ∧ u.negates? = some a ∧
    (∀ v ∈ before, v.negates? ≠ some a) ∧ ∀ a', P a' → a' ≠ a → ∃ v ∈ before, v.negates? = some a'

/-- Joining an edge adds its start at the end, if no edge starts there yet. -/
theorem starts_join (a b : String) (es : List Edge) :
    starts (join (a, b) es) = if a ∈ starts es then starts es else starts es ++ [a] := by
  have hsnoc : starts (es ++ [(a, b)]) = if a ∈ starts es then starts es else starts es ++ [a] := by
    unfold starts
    rw [List.map_append, List.map_singleton, eraseDups_snoc]
    simp only [List.mem_eraseDups]
  unfold join
  split
  · rename_i he
    rw [if_pos (mem_starts.2 ⟨b, he⟩)]
  · exact hsnoc

/-- What one note does to the starts of negative edges. -/
theorem starts_update (g : Graph) (u : Update) :
    starts (g.update u).negative =
      match u.negates? with
      | some a => if a ∈ starts g.negative then starts g.negative else starts g.negative ++ [a]
      | none => starts g.negative := by
  cases u with
  | head name => rfl
  | use head used negated =>
    cases negated with
    | false => rfl
    | true => exact starts_join head used g.negative

theorem ofUpdates_snoc (us : List Update) (u : Update) :
    ofUpdates (us ++ [u]) = (ofUpdates us).update u := by
  simp [ofUpdates]

theorem mem_starts_negative {us : List Update} {a : String} :
    a ∈ starts (ofUpdates us).negative ↔ ∃ u ∈ us, u.negates? = some a := by
  rw [mem_starts]
  simp only [(holds_ofUpdates us).negative]
  constructor
  · rintro ⟨b, hu⟩
    exact ⟨_, hu, rfl⟩
  · rintro ⟨u, hu, ha⟩
    cases u with
    | head name => cases ha
    | use head used negated =>
      cases negated with
      | false => cases ha
      | true =>
        cases ha
        exact ⟨used, hu⟩

/-- The starts of negative edges stand in the order of their first negative notes: when a start is
first negated, those before it have been, and it has not. -/
theorem starts_negative_order {us : List Update} {earlier later : List String} {a : String}
    (h : starts (ofUpdates us).negative = earlier ++ a :: later) :
    ∃ before u after, us = before ++ u :: after ∧ u.negates? = some a ∧
      (∀ v ∈ before, v.negates? ≠ some a) ∧ ∀ a' ∈ earlier, ∃ v ∈ before, v.negates? = some a' := by
  induction us using List.reverseRecOn generalizing later with
  | nil => simp [ofUpdates, empty, starts] at h
  | append_singleton us u ih =>
    -- if the last note adds no start, or a start behind this one, the cut is found before it
    have hkeep : ∀ later', starts (ofUpdates us).negative = earlier ++ a :: later' →
        ∃ before v after, us ++ [u] = before ++ v :: after ∧ v.negates? = some a ∧
          (∀ w ∈ before, w.negates? ≠ some a) ∧
          ∀ a' ∈ earlier, ∃ w ∈ before, w.negates? = some a' := by
      intro later' h'
      obtain ⟨before, v, after, rfl, hv⟩ := ih h'
      exact ⟨before, v, after ++ [u], by simp, hv⟩
    rw [ofUpdates_snoc, starts_update] at h
    cases hu : u.negates? with
    | none =>
      rw [hu] at h
      exact hkeep later h
    | some c =>
      rw [hu] at h
      simp only at h
      split at h
      · exact hkeep later h
      · rename_i hnew
        rcases List.eq_nil_or_concat later with rfl | ⟨later', d, rfl⟩
        · -- the last note negates this very start for the first time
          obtain ⟨rfl, hac⟩ := List.append_inj' h rfl
          cases hac
          refine ⟨us, u, [], rfl, hu, fun v hv hvc => ?_, fun a' ha' => mem_starts_negative.1 ha'⟩
          exact hnew (mem_starts_negative.2 ⟨v, hv, hvc⟩)
        · rw [List.concat_eq_append, ← List.cons_append, ← List.append_assoc] at h
          exact hkeep later' (List.append_inj' h rfl).1

/-! ## The search -/

/-- A negative edge whose end comes back to its start. -/
def NegativeCycle (g : Graph) (a b : String) : Prop := (a, b) ∈ g.negative ∧ Path g.edges b a

/-- Some negative edge from a name comes back to it. -/
def StartsNegativeCycle (g : Graph) (a : String) : Prop := ∃ b, g.NegativeCycle a b

section Search

variable {us : List Update} {names : List String}

/-- On a negative edge the test of the search says whether the edge comes back, whatever names it is
given. -/
theorem mem_dependencies_iff_path {e : Edge} (he : e ∈ (ofUpdates us).negative) :
    e.1 ∈ (ofUpdates us).dependencies ((ofUpdates us).allNames names) (· == e.2) ↔
      Path (ofUpdates us).edges e.2 e.1 :=
  mem_dependencies_allNames ((holds_ofUpdates us).consistent.negative e he)

theorem cycleFault?_names (us : List Update) (names names' : List String) :
    (ofUpdates us).cycleFault? names = (ofUpdates us).cycleFault? names' := by
  unfold cycleFault?
  congr 1
  refine List.find?_congr fun e he => ?_
  have he : e ∈ (ofUpdates us).negative := mem_negativeCandidates.1 he
  rw [decide_eq_decide, mem_dependencies_iff_path he, mem_dependencies_iff_path he]

theorem cycleFault?_eq_none_iff_path (us : List Update) (names : List String) :
    (ofUpdates us).cycleFault? names = none ↔ ¬ ∃ a b, (ofUpdates us).NegativeCycle a b := by
  unfold cycleFault?
  rw [Option.map_eq_none_iff, List.find?_eq_none]
  constructor
  · rintro h ⟨a, b, he, p⟩
    have htest := h (a, b) (mem_negativeCandidates.2 he)
    rw [decide_eq_true_eq, mem_dependencies_iff_path he] at htest
    exact htest p
  · rintro h ⟨a, b⟩ he
    have he := mem_negativeCandidates.1 he
    rw [decide_eq_true_eq, mem_dependencies_iff_path he]
    exact fun p => h ⟨a, b, he, p⟩

/-- The edge that is reported comes back, and of all names that start such an edge its start is the
one that was negated last for the first time. -/
theorem cycleFault?_reports {f : Fault} (h : (ofUpdates us).cycleFault? names = some f) :
    ∃ a b, f = .negativeCycle a b ∧ (ofUpdates us).NegativeCycle a b ∧
      NegatedLast us (ofUpdates us).StartsNegativeCycle a := by
  unfold cycleFault? negativeCandidates at h
  obtain ⟨⟨a, b⟩, hfind, rfl⟩ := Option.map_eq_some_iff.1 h
  rw [List.find?_flatMap, List.findSome?_eq_some_iff] at hfind
  obtain ⟨later, a₁, earlier, hcut, hfound, hlater⟩ := hfind
  -- the edge is among those of the start where the search stops
  have hmem := List.mem_of_find?_eq_some hfound
  obtain ⟨b₁, hb, hab⟩ := List.mem_map.1 hmem
  cases hab
  have he : (a, b) ∈ (ofUpdates us).negative := mem_endsFrom.1 hb
  have htest := List.find?_some hfound
  rw [decide_eq_true_eq] at htest
  have hcycle : (ofUpdates us).NegativeCycle a b := ⟨he, (mem_dependencies_iff_path he).1 htest⟩
  have hstarts : starts (ofUpdates us).negative = earlier.reverse ++ a :: later.reverse := by
    rw [← List.reverse_reverse (starts _), hcut]
    simp
  obtain ⟨before, u, after, hus, hu, hfirst, hbefore⟩ := starts_negative_order hstarts
  refine ⟨a, b, rfl, hcycle, ⟨b, hcycle⟩, before, u, after, hus, hu, hfirst, fun a' hc hne => ?_⟩
  obtain ⟨b', he', p'⟩ := hc
  -- a start that the search has passed has no edge that comes back
  have hpassed : a' ∉ later := by
    intro hl
    have hnone := List.find?_eq_none.1 (hlater a' hl) (a', b')
      (List.mem_map.2 ⟨b', mem_endsFrom.2 he', rfl⟩)
    rw [decide_eq_true_eq, mem_dependencies_iff_path he'] at hnone
    exact hnone p'
  have hstart : a' ∈ starts (ofUpdates us).negative := mem_starts.2 ⟨b', he'⟩
  rw [hstarts, List.mem_append, List.mem_cons, List.mem_reverse, List.mem_reverse] at hstart
  rcases hstart with hearlier | heq | hl
  · exact hbefore a' (List.mem_reverse.2 hearlier)
  · exact absurd heq hne
  · exact absurd hl hpassed

end Search

theorem checkStratified_error_iff {g : Graph} {names : List String} {e : Failure} :
    (g.checkStratified names).outcome = .error e ↔ ∃ f, g.cycleFault? names = some f ∧ e = .fault f := by
  unfold checkStratified
  cases g.cycleFault? names with
  | none =>
    constructor
    · intro h
      cases h
    · rintro ⟨f, hf, -⟩
      cases hf
  | some f =>
    constructor
    · intro h
      cases h
      exact ⟨f, rfl, rfl⟩
    · rintro ⟨f', hf, rfl⟩
      cases hf
      rfl

/-- Stratification of any graph, built by any notes, whatever names are given. The graph is refused
exactly if some negative edge comes back to its start. The verdict does not depend on the names. A
refusal names such an edge, with the start that was negated last for the first time. The check gives
no graph back, so whoever asks goes on with the graph as it is. -/
theorem checkStratified_iff_no_cycle (us : List Update) (names : List String) :
    ((∃ e, ((ofUpdates us).checkStratified names).outcome = .error e) ↔
      ∃ a b, (ofUpdates us).NegativeCycle a b) ∧
    (∀ names', (ofUpdates us).checkStratified names' = (ofUpdates us).checkStratified names) ∧
    (∀ e, ((ofUpdates us).checkStratified names).outcome = .error e →
      ∃ a b f, e = .fault f ∧ f.code = "E160" ∧ f.subject = .edge a b ∧
        (ofUpdates us).NegativeCycle a b ∧ NegatedLast us (ofUpdates us).StartsNegativeCycle a) ∧
    (ofUpdates us).call (.ask (.stratified names)) =
      (ofUpdates us, .verdict ((ofUpdates us).checkStratified names)) := by
  refine ⟨?_, fun names' => ?_, fun e he => ?_, rfl⟩
  · simp only [checkStratified_error_iff]
    rw [← not_iff_not, ← cycleFault?_eq_none_iff_path us names]
    cases (ofUpdates us).cycleFault? names <;> simp
  · unfold checkStratified
    rw [cycleFault?_names us names' names]
  · obtain ⟨f, hf, rfl⟩ := checkStratified_error_iff.1 he
    obtain ⟨a, b, rfl, hcycle, hlast⟩ := cycleFault?_reports hf
    exact ⟨a, b, _, rfl, rfl, rfl, hcycle, hlast⟩

/-- Two games that end if they do not, one of them with a second negation noted at the end. -/
def twoCycles : List Update :=
  [.use "win" "lose" true, .use "lose" "win" false, .use "draw" "open" true, .use "open" "draw" false,
    .use "win" "open" true]

/-- The cycle is reported whose negation was new last, although another negation was noted later. -/
theorem twoCycles_refused :
    ((ofUpdates twoCycles).checkStratified ["free"]).outcome =
        .error (.fault (.negativeCycle "draw" "open")) ∧
      NegatedLast twoCycles (ofUpdates twoCycles).StartsNegativeCycle "draw" := by
  have hv : ((ofUpdates twoCycles).checkStratified ["free"]).outcome =
      .error (.fault (.negativeCycle "draw" "open")) := by
    decide +kernel
  obtain ⟨a, b, f, hf, -, hsubject, -, hlast⟩ :=
    (checkStratified_iff_no_cycle twoCycles ["free"]).2.2.1 _ hv
  cases hf
  cases hsubject
  exact ⟨hv, hlast⟩

end GameRules.Graph
