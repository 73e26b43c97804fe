/-
Up and down the definitions. Notes of uses order the names: a name leads to all that its definition
comes to use. The entries of the ancestors are this order, and the searches along the edges and
against them read it from its two sides, so what one finds from a name the other finds from the end.
-/
import GameRules.Proofs.Graph.Session

namespace GameRules.Graph

/-! ## The order that notes make -/

/-- The definition of a name is noted to use another one. -/
def Noted (us : List Update) (a b : String) : Prop := ∃ negated, .use a b negated ∈ us

/-- A name is another one or is noted to come to use it. -/
def LeadsTo (us : List Update) : String → String → Prop := Relation.ReflTransGen (Noted us)

/-- Entries give some names, and no others, all that each of them leads to. -/
structure Orders (us : List Update) (names : NameSet) (entries : List (String × NameSet)) :
    Prop where
  keys : entries.map (·.1) = names.toList
  entry : ∀ n ∈ names, ∃ up, entries.lookup n = some up ∧ ∀ m, m ∈ up ↔ LeadsTo us n m
  refl : ∀ n up, entries.lookup n = some up → n ∈ up
  trans : ∀ n up m up', entries.lookup n = some up → entries.lookup m = some up' → m ∈ up →
    ∀ x ∈ up', x ∈ up

section Notes

variable {us : List Update}

theorem path_ofUpdates_iff {a b : String} : Path (ofUpdates us).edges a b ↔ LeadsTo us a b :=
  path_iff_reflTransGen (holds_ofUpdates us).edges

theorem lookup_ancestors_eq_some {names : NameSet} {n : String} {up : NameSet}
    (h : ((ofUpdates us).ancestors names).lookup n = some up) (m : String) :
    m ∈ up ↔ LeadsTo us n m := by
  rw [lookup_ancestors] at h
  split at h
  · rename_i hn
    cases h
    rw [mem_dependencies_beq, path_ofUpdates_iff]
    exact and_iff_right hn
  · cases h

theorem orders_ancestors (names : NameSet) : Orders us names ((ofUpdates us).ancestors names) where
  keys := by
    unfold ancestors
    rw [List.map_map]
    exact List.map_id names.toList
  entry := fun n hn => by
    have h := lookup_ancestors (ofUpdates us) names n
    rw [if_pos hn] at h
    exact ⟨_, h, lookup_ancestors_eq_some h⟩
  refl := fun n up h => (lookup_ancestors_eq_some h n).2 .refl
  trans := fun n up m up' h h' hm x hx => by
    have hnm : LeadsTo us n m := (lookup_ancestors_eq_some h m).1 hm
    have hmx : LeadsTo us m x := (lookup_ancestors_eq_some h' x).1 hx
    exact (lookup_ancestors_eq_some h x).2 (hnm.trans hmx)

end Notes

/-! ## The two searches -/

theorem mem_dependencies_iff_mem_dependents {g : Graph} {names : List String} {a b : String}
    (ha : a ∈ names) (hb : b ∈ names) :
    b ∈ g.dependencies names (· == a) ↔ a ∈ g.dependents names (· == b) := by
  rw [mem_dependencies_beq, mem_dependents_beq]
  exact and_congr_left' (iff_of_true ha hb)

/-- What comes to use one of several names is what comes to use one or another of them. -/
theorem dependents_contains (g : Graph) (names L : List String) :
    g.dependents names (L.contains ·) =
      (L.map fun l => g.dependents names (· == l)).foldl .union .empty := by
  refine NameSet.ext fun x => ?_
  rw [mem_dependents, NameSet.mem_foldl_union]
  simp only [List.contains_eq_mem, decide_eq_true_eq, NameSet.not_mem_empty, false_or]
  constructor
  · rintro ⟨l, hl, hL, p⟩
    exact ⟨_, List.mem_map_of_mem hL, mem_dependents_beq.2 ⟨hl, p⟩⟩
  · rintro ⟨_, hs, hx⟩
    obtain ⟨l, hL, rfl⟩ := List.mem_map.1 hs
    obtain ⟨hl, p⟩ := mem_dependents_beq.1 hx
    exact ⟨l, hl, hL, p⟩

/-- Whatever has been noted, the ancestors of some names are the order of these notes on them. One
name is found up from another exactly if the other is found down from it, and the search down from
several names finds what the searches down from each of them find together. -/
theorem searches_dual (us : List Update) :
    (∀ names : NameSet, Orders us names ((ofUpdates us).ancestors names)) ∧
    (∀ names : List String, ∀ a ∈ names, ∀ b ∈ names,
      (b ∈ (ofUpdates us).dependencies names (· == a) ↔
        a ∈ (ofUpdates us).dependents names (· == b))) ∧
    ∀ names L : List String, (ofUpdates us).dependents names (L.contains ·) =
      (L.map fun l => (ofUpdates us).dependents names (· == l)).foldl .union .empty :=
  ⟨orders_ancestors, fun _ _ ha _ hb => mem_dependencies_iff_mem_dependents ha hb,
    dependents_contains (ofUpdates us)⟩

/-- Three names that come to use each other. -/
def circle : List Update :=
  [.use "win" "line" false, .use "line" "cell" true, .use "cell" "win" false]

/-- Two names of a circle are found from each other both ways, also through a name not asked for. -/
theorem searches_dual_on_circle :
    "cell" ∈ (ofUpdates circle).dependencies ["win", "cell"] (· == "win") ∧
      "win" ∈ (ofUpdates circle).dependents ["win", "cell"] (· == "cell") := by
  have hline : LeadsTo circle "line" "cell" := .single ⟨true, by decide⟩
  have hwin : LeadsTo circle "win" "cell" := hline.head ⟨false, by decide⟩
  have hup : "cell" ∈ (ofUpdates circle).dependencies ["win", "cell"] (· == "win") :=
    mem_dependencies_beq.2 ⟨by decide, path_ofUpdates_iff.2 hwin⟩
  exact ⟨hup, ((searches_dual circle).2.1 _ "win" (by decide) "cell" (by decide)).1 hup⟩

end GameRules.Graph
