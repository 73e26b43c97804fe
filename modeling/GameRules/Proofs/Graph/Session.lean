/-
What a graph holds after a session. Its edges, its negative edges and its heads are exactly what has
been noted, each once; the views on them agree with each other, and questions leave no trace. What
has been noted counts, and not when: the same notes in any order lead to the same graph but for the
order of its edges, and to the same names up and down the definitions.
-/
import GameRules.Graph.Session
import GameRules.Proofs.Graph.Dependency
import Mathlib.Algebra.BigOperators.Group.List.Lemmas
import Mathlib.Algebra.GroupWithZero.Nat
import Mathlib.Data.Finset.Card

namespace GameRules.Graph

/-! ## What the notes say -/

/-- The name that a note is about. -/
def Update.about : Update → String
  | head name => name
  | use name _ _ => name

/-- The edge that a note brings, if it is about a use. -/
def Update.edge? : Update → Option Edge
  | head _ => none
  | use name used _ => some (name, used)

def Call.update? : Call → Option Update
  | note u => some u
  | ask _ => none

/-- The notes of a session, without the questions. -/
def notes (cs : List Call) : List Update := cs.filterMap Call.update?

/-- A graph holds what some notes say, each thing once, and no more. -/
structure Holds (g : Graph) (us : List Update) : Prop where
  edges : ∀ a b, (a, b) ∈ g.edges ↔ ∃ negated, .use a b negated ∈ us
  nodup_edges : g.edges.Nodup
  negative : ∀ a b, (a, b) ∈ g.negative ↔ .use a b true ∈ us
  nodup_negative : g.negative.Nodup
  heads : ∀ a, a ∈ g.heads ↔ ∃ u ∈ us, u.about = a
  size : g.size = (us.filterMap Update.edge?).toFinset.card

/-- The views on a graph agree with each other. -/
structure Consistent (g : Graph) : Prop where
  negative : ∀ e ∈ g.negative, e ∈ g.edges
  /-- Both maps from names to the names they use have heads for keys. That they hold no empty list is
  so whatever was noted, since edges are gathered only under names that start one. -/
  entries : ∀ es ∈ [g.edges, g.negative], ∀ e ∈ gathered es, e.1 ∈ g.heads ∧ e.2 ≠ []
  size : g.size = ((gathered g.edges).map (·.2.length)).sum
  targets : ∀ b, b ∈ g.targets ↔ b ∈ g.users.map (·.1)
  users : ∀ a b, (∃ as, g.users.lookup b = some as ∧ a ∈ as) ↔ b ∈ g.uses a

/-- Two graphs differ at most in the order of their edges, and lead up and down to the same names. -/
structure SameContents (g g' : Graph) : Prop where
  heads : g.heads = g'.heads
  edges : g.edges.Perm g'.edges
  negative : g.negative.Perm g'.negative
  dependencies : ∀ names matching, g.dependencies names matching = g'.dependencies names matching
  dependents : ∀ names matching, g.dependents names matching = g'.dependents names matching
  ancestors : ∀ names, g.ancestors names = g'.ancestors names

/-! ## Notes one after another -/

/-- One note adds the name it is about and the use it tells of. -/
theorem extends_update (g : Graph) (u : Update) :
    Extends g (g.update u) (u.about = ·) (fun a b negated => u = .use a b negated) := by
  cases u with
  | head name =>
    refine ⟨fun a => ?_, by simp [update, addHead], by simp [update, addHead]⟩
    have hmem : a ∈ (g.addHead name).heads ↔ a = name ∨ a ∈ g.heads := NameSet.mem_insert
    rw [update, hmem, or_comm, eq_comm]
    rfl
  | use head used negated =>
    refine ⟨fun a => ?_, fun a b => ?_, fun a b => ?_⟩
    · rw [update, mem_heads_add, or_comm, eq_comm]
      rfl
    · rw [update, mem_edges_add]
      simp only [Prod.mk.injEq, Update.use.injEq]
      grind
    · rw [update, mem_negative_add]
      simp only [Prod.mk.injEq, Update.use.injEq]
      grind

theorem extends_updates (g : Graph) (us : List Update) :
    Extends g (us.foldl update g) (fun a => ∃ u ∈ us, u.about = a)
      (fun a b negated => .use a b negated ∈ us) := by
  induction us generalizing g with
  | nil => exact ⟨by simp, by simp, by simp⟩
  | cons u us ih =>
    have hE := (extends_update g u).trans (ih (g.update u))
    simp only [List.foldl_cons, List.exists_mem_cons_iff]
    simpa only [List.mem_cons, eq_comm (a := u)] using hE

/-- A note never doubles an edge. -/
theorem nodup_update {g : Graph} (u : Update) (he : g.edges.Nodup) (hn : g.negative.Nodup) :
    (g.update u).edges.Nodup ∧ (g.update u).negative.Nodup := by
  cases u with
  | head name => exact ⟨he, hn⟩
  | use head used negated =>
    refine ⟨nodup_join he, ?_⟩
    cases negated with
    | false => exact hn
    | true => exact nodup_join hn

theorem nodup_updates {g : Graph} (us : List Update) (he : g.edges.Nodup) (hn : g.negative.Nodup) :
    (us.foldl update g).edges.Nodup ∧ (us.foldl update g).negative.Nodup := by
  induction us generalizing g with
  | nil => exact ⟨he, hn⟩
  | cons u us ih =>
    obtain ⟨he, hn⟩ := nodup_update u he hn
    exact ih he hn

theorem mem_filterMap_edge? {us : List Update} {a b : String} :
    (a, b) ∈ us.filterMap Update.edge? ↔ ∃ negated, .use a b negated ∈ us := by
  rw [List.mem_filterMap]
  constructor
  · rintro ⟨u, hu, he⟩
    cases u with
    | head name => cases he
    | use head used negated =>
      cases he
      exact ⟨negated, hu⟩
  · rintro ⟨negated, hu⟩
    exact ⟨_, hu, rfl⟩

theorem holds_ofUpdates (us : List Update) : Holds (ofUpdates us) us := by
  have hE := extends_updates empty us
  have hnodup := nodup_updates (g := empty) us .nil .nil
  have hedges : ∀ a b, (a, b) ∈ (ofUpdates us).edges ↔ ∃ negated, .use a b negated ∈ us := by
    intro a b
    rw [ofUpdates, hE.edges]
    simp [empty]
  refine ⟨hedges, hnodup.1, fun a b => ?_, hnodup.2, fun a => ?_, ?_⟩
  · rw [ofUpdates, hE.negative]
    simp [empty]
  · rw [ofUpdates, hE.heads]
    simp [empty]
  · unfold size ofUpdates
    rw [← List.toFinset_card_of_nodup hnodup.1]
    congr 1
    ext ⟨a, b⟩
    rw [List.mem_toFinset, List.mem_toFinset, mem_filterMap_edge?]
    exact hedges a b

/-! ## Views -/

theorem mem_gathered {es : List Edge} {a : String} {bs : List String} :
    (a, bs) ∈ gathered es ↔ (∃ b, (a, b) ∈ es) ∧ bs = endsFrom es a := by
  unfold gathered
  simp only [List.mem_map, mem_starts, Prod.mk.injEq]
  constructor
  · rintro ⟨a', h, rfl, rfl⟩
    exact ⟨h, rfl⟩
  · rintro ⟨h, rfl⟩
    exact ⟨a, h, rfl, rfl⟩

theorem nodup_eraseDups (xs : List String) : xs.eraseDups.Nodup := by
  induction hn : xs.length using Nat.strong_induction_on generalizing xs with
  | _ n ih =>
    cases xs with
    | nil => simp
    | cons x xs =>
      rw [List.eraseDups_cons, List.nodup_cons]
      have hlt : (xs.filter fun y => !y == x).length < n := by
        have hle := List.length_filter_le (fun y => !y == x) xs
        rw [List.length_cons] at hn
        omega
      exact ⟨by simp [List.mem_eraseDups], ih _ hlt _ rfl⟩

/-- Each edge stands in exactly one list of the map that gathers them. -/
theorem sum_length_gathered (es : List Edge) : ((gathered es).map (·.2.length)).sum = es.length := by
  have hcount : ∀ a, (endsFrom es a).length = (es.map (·.1)).count a := by
    intro a
    rw [endsFrom, List.length_map, ← List.countP_eq_length_filter, List.count, List.countP_map]
    rfl
  have hperm : (starts es).Perm (es.map (·.1)).dedup := by
    refine (List.perm_ext_iff_of_nodup (nodup_eraseDups _) (List.nodup_dedup _)).2 fun a => ?_
    rw [List.mem_eraseDups, List.mem_dedup]
  calc ((gathered es).map (·.2.length)).sum
      = ((starts es).map fun a => (es.map (·.1)).count a).sum := by
        simp only [gathered, List.map_map, Function.comp_def, hcount]
    _ = ((es.map (·.1)).dedup.map fun a => (es.map (·.1)).count a).sum := (hperm.map _).sum_eq
    _ = (es.map (·.1)).length := List.sum_map_count_dedup_eq_length _
    _ = es.length := List.length_map _

theorem mem_reversed {g : Graph} {a b : String} : (b, a) ∈ g.reversed ↔ (a, b) ∈ g.edges := by
  simp [reversed]

theorem mem_targets {g : Graph} {b : String} : b ∈ g.targets ↔ ∃ a, (a, b) ∈ g.edges := by
  simp [targets]

theorem mem_starts_reversed {g : Graph} {b : String} : b ∈ starts g.reversed ↔ b ∈ g.targets := by
  simp only [mem_starts, mem_reversed, mem_targets]

theorem users_eq (g : Graph) :
    g.users = (starts g.reversed).map fun b => (b, .ofList (endsFrom g.reversed b)) := by
  simp [users, gathered]

/-- The users of a name are found under it exactly if it is used. -/
theorem lookup_users (g : Graph) (b : String) :
    g.users.lookup b =
      if b ∈ g.targets then some (.ofList (endsFrom g.reversed b)) else none := by
  rw [users_eq, lookup_pairs fun b => NameSet.ofList (endsFrom g.reversed b)]
  simp only [mem_starts_reversed]

theorem Holds.consistent {g : Graph} {us : List Update} (h : Holds g us) : Consistent g where
  negative := by
    rintro ⟨a, b⟩ he
    exact (h.edges a b).2 ⟨true, (h.negative a b).1 he⟩
  entries := by
    -- a name with an entry starts an edge, and every edge comes from a note about its start
    have hhead : ∀ a b, (a, b) ∈ g.edges → a ∈ g.heads := by
      intro a b he
      obtain ⟨negated, hu⟩ := (h.edges a b).1 he
      exact (h.heads a).2 ⟨_, hu, rfl⟩
    have hedge : ∀ es ∈ [g.edges, g.negative], ∀ e ∈ es, e.1 ∈ g.heads := by
      rintro es hes ⟨a, b⟩ he
      simp only [List.mem_cons, List.not_mem_nil, or_false] at hes
      rcases hes with rfl | rfl
      · exact hhead a b he
      · exact hhead a b ((h.edges a b).2 ⟨true, (h.negative a b).1 he⟩)
    rintro es hes ⟨a, bs⟩ hm
    obtain ⟨⟨b, he⟩, rfl⟩ := mem_gathered.1 hm
    exact ⟨hedge es hes (a, b) he, List.ne_nil_of_mem (mem_endsFrom.2 he)⟩
  size := (sum_length_gathered g.edges).symm
  targets := by
    intro b
    rw [users_eq, List.map_map, ← mem_starts_reversed]
    simp [Function.comp_def]
  users := by
    intro a b
    have hmem : a ∈ NameSet.ofList (endsFrom g.reversed b) ↔ (a, b) ∈ g.edges := by
      rw [NameSet.mem_ofList, mem_endsFrom, mem_reversed]
    rw [lookup_users, uses, mem_endsFrom]
    constructor
    · rintro ⟨as, has, ha⟩
      split at has
      · cases has
        exact hmem.1 ha
      · cases has
    · intro he
      rw [if_pos (mem_targets.2 ⟨a, he⟩)]
      exact ⟨_, rfl, hmem.2 he⟩

/-! ## The order of the notes -/

theorem Holds.sameContents {g g' : Graph} {us us' : List Update} (h : Holds g us) (h' : Holds g' us')
    (hus : ∀ u, u ∈ us ↔ u ∈ us') : SameContents g g' := by
  have hedges : ∀ e, e ∈ g.edges ↔ e ∈ g'.edges := by
    rintro ⟨a, b⟩
    simp only [h.edges, h'.edges, hus]
  have hnegative : ∀ e, e ∈ g.negative ↔ e ∈ g'.negative := by
    rintro ⟨a, b⟩
    rw [h.negative, h'.negative, hus]
  have hpath : ∀ a b, Path g.edges a b ↔ Path g'.edges a b := fun a b =>
    ⟨Path.mono fun e => (hedges e).1, Path.mono fun e => (hedges e).2⟩
  have hdependencies : ∀ names matching,
      g.dependencies names matching = g'.dependencies names matching := by
    refine fun names matching => NameSet.ext fun x => ?_
    simp only [mem_dependencies, hpath]
  exact {
    heads := NameSet.ext fun a => by simp only [h.heads, h'.heads, hus]
    edges := (List.perm_ext_iff_of_nodup h.nodup_edges h'.nodup_edges).2 hedges
    negative := (List.perm_ext_iff_of_nodup h.nodup_negative h'.nodup_negative).2 hnegative
    dependencies := hdependencies
    dependents := fun names matching => NameSet.ext fun x => by simp only [mem_dependents, hpath]
    ancestors := fun names => by simp only [ancestors, hdependencies] }

/-! ## Questions in between -/

/-- Questions leave the graph as it is. -/
theorem session_graph (g : Graph) (cs : List Call) : (g.session cs).1 = (notes cs).foldl update g := by
  induction cs generalizing g with
  | nil => rfl
  | cons c cs ih =>
    cases c with
    | note u => exact ih (g.update u)
    | ask q => exact ih g

/-- A question is answered from the notes before it. -/
theorem session_answer (g : Graph) (before : List Call) (q : Query) (after : List Call) :
    (g.session (before ++ .ask q :: after)).2[before.length]? =
      some (((notes before).foldl update g).answer q) := by
  induction before generalizing g with
  | nil => rfl
  | cons c before ih =>
    cases c with
    | note u => exact ih (g.update u)
    | ask q' => exact ih g

/-- A session leaves exactly what it has noted, in views that agree with each other, and no later note
takes a negative edge back. Questions change nothing and are answered from the notes before them. The
same notes, in whatever order and however often, lead to the same contents. -/
theorem session_holds_notes :
    (∀ cs : List Call, (empty.session cs).1 = ofUpdates (notes cs)) ∧
    (∀ before q after, (empty.session (before ++ .ask q :: after)).2[before.length]? =
      some ((ofUpdates (notes before)).answer q)) ∧
    (∀ us, Holds (ofUpdates us) us ∧ Consistent (ofUpdates us)) ∧
    (∀ us more, ∀ e ∈ (ofUpdates us).negative, e ∈ (ofUpdates (us ++ more)).negative) ∧
    ∀ us us' : List Update, (∀ u, u ∈ us ↔ u ∈ us') →
      SameContents (ofUpdates us) (ofUpdates us') := by
  refine ⟨session_graph empty, session_answer empty, fun us => ?_, ?_, fun us us' hus => ?_⟩
  · have h := holds_ofUpdates us
    exact ⟨h, h.consistent⟩
  · rintro us more ⟨a, b⟩ he
    have hu := ((holds_ofUpdates us).negative a b).1 he
    exact ((holds_ofUpdates (us ++ more)).negative a b).2 (List.mem_append_left _ hu)
  · exact (holds_ofUpdates us).sameContents (holds_ofUpdates us') hus

/-- A use that is noted with and without a negation stays negative, whichever comes last. -/
theorem sameContents_of_notes_backwards :
    SameContents
      (ofUpdates [.head "win", .use "win" "line" true, .use "win" "line" false, .use "line" "cell" false])
      (ofUpdates [.use "line" "cell" false, .use "win" "line" false, .use "win" "line" true, .head "win",
        .use "line" "cell" false]) :=
  session_holds_notes.2.2.2.2 _ _ fun u => by simp; tauto

end GameRules.Graph
