/-
Strata. Rules are stratified if each name can be given a number so that a definition uses only names
of its own stratum or below, and below a negation only names of lower strata. Rules whose graph has
no negative edge on a cycle can be numbered by how many names each one comes to depend on; so the
search for such an edge decides whether strata exist.
-/
import GameRules.Proofs.Program.Analysis

namespace GameRules

/-! ## Strata and cycles -/

/-- The numbers are strata of the rules: no body uses a name above the name of its head, and below a
negation none that is not under it. -/
def Stratifies (σ : String → Nat) (rules : List Rule) : Prop :=
  ∀ r ∈ rules, ∀ head, r.head.name? = some head → ∀ s negated name, r.Uses s negated →
    s.name? = some name → σ name ≤ σ head ∧ (negated = true → σ name < σ head)

/-- No negative dependency leads back to where it started. -/
def NoNegativeCycle (rules : List Rule) : Prop :=
  ∀ a b, DependsNegatively rules a b → ¬ Reaches rules b a

theorem stratifies_iff {σ : String → Nat} {rules : List Rule} :
    Stratifies σ rules ↔ (∀ a b, Depends rules a b → σ b ≤ σ a) ∧
      ∀ a b, DependsNegatively rules a b → σ b < σ a := by
  constructor
  · intro h
    refine ⟨?_, ?_⟩
    · rintro a b ⟨r, hr, negated, ha, s, hs, hb⟩
      exact (h r hr a ha s negated b hs hb).1
    · rintro a b ⟨r, hr, ha, s, hs, hb⟩
      exact (h r hr a ha s true b hs hb).2 rfl
  · rintro ⟨hle, hlt⟩ r hr a ha s negated b hs hb
    refine ⟨hle a b ⟨r, hr, negated, ha, s, hs, hb⟩, ?_⟩
    rintro rfl
    exact hlt a b ⟨r, hr, ha, s, hs, hb⟩

/-- A name never comes to depend on a higher stratum. -/
theorem Stratifies.le_of_reaches {σ : String → Nat} {rules : List Rule} (h : Stratifies σ rules)
    {a b : String} (hab : Reaches rules a b) : σ b ≤ σ a := by
  induction hab with
  | refl => exact Nat.le_refl _
  | tail _ hbc ih => exact Nat.le_trans ((stratifies_iff.1 h).1 _ _ hbc) ih

theorem Stratifies.noNegativeCycle {σ : String → Nat} {rules : List Rule} (h : Stratifies σ rules) :
    NoNegativeCycle rules := by
  intro a b hab hba
  have hlt := (stratifies_iff.1 h).2 a b hab
  have hle := h.le_of_reaches hba
  omega

/-! ## Numbering by dependence -/

namespace Graph

/-- How many names a name comes to depend on, itself included. -/
def rank (g : Graph) (a : String) : Nat := (g.dependencies [a] fun _ => true).size

theorem mem_rank_set {g : Graph} {a x : String} :
    x ∈ g.dependencies [a] (fun _ => true) ↔ Path g.edges a x := by
  simp [mem_dependencies]

theorem rank_le {g : Graph} {a b : String} (h : (a, b) ∈ g.edges) : g.rank b ≤ g.rank a := by
  refine NameSet.size_le fun x hx => ?_
  rw [mem_rank_set] at hx ⊢
  exact .step h hx

/-- An edge that lies on no cycle leads to fewer names. -/
theorem rank_lt {g : Graph} {a b : String} (h : (a, b) ∈ g.edges) (hba : ¬ Path g.edges b a) :
    g.rank b < g.rank a := by
  refine NameSet.size_lt (x := a) (fun x hx => ?_) ?_ ?_
  · rw [mem_rank_set] at hx ⊢
    exact .step h hx
  · -- the start is one of its own dependencies, and none of the end's
    rw [mem_rank_set]
    exact .refl a
  · rw [mem_rank_set]
    exact hba

/-- Without a negative cycle the ranks are strata. -/
theorem stratifies_rank {rules : List Rule} {g : Graph} (hg : ofRules rules = .ok g)
    (h : NoNegativeCycle rules) : Stratifies g.rank rules := by
  rw [stratifies_iff]
  refine ⟨fun a b hab => rank_le ((mem_edges_ofRules hg).2 hab), fun a b hab => ?_⟩
  refine rank_lt ((mem_edges_ofRules hg).2 hab.depends) ?_
  rw [path_ofRules_iff hg]
  exact h a b hab

/-! ## The search for a negative cycle -/

theorem mem_negativeCandidates {g : Graph} {e : Edge} :
    e ∈ g.negativeCandidates ↔ e ∈ g.negative := by
  obtain ⟨a, b⟩ := e
  unfold negativeCandidates
  simp only [List.mem_flatMap, List.mem_reverse, mem_starts, List.mem_map, mem_endsFrom,
    Prod.mk.injEq]
  constructor
  · rintro ⟨a', -, b', h, rfl, rfl⟩
    exact h
  · intro h
    exact ⟨a, ⟨b, h⟩, b, h, rfl, rfl⟩

/-- The search starts from every edge's end, whatever names it is given. -/
theorem mem_dependencies_allNames {g : Graph} {names : List String} {a b x : String}
    (h : (a, b) ∈ g.edges) :
    x ∈ g.dependencies (g.allNames names) (· == b) ↔ Path g.edges b x := by
  have hb : b ∈ g.targets := NameSet.mem_ofList.2 (List.mem_map.2 ⟨(a, b), h, rfl⟩)
  rw [mem_dependencies_beq]
  exact and_iff_right (List.mem_append_right _ hb)

section Search

variable {rules : List Rule} {g : Graph} (hg : ofRules rules = .ok g)
include hg

theorem cycleFault?_eq_none_iff {names : List String} :
    g.cycleFault? names = none ↔ NoNegativeCycle rules := by
  unfold cycleFault? NoNegativeCycle
  rw [Option.map_eq_none_iff, List.find?_eq_none]
  constructor
  · intro h a b hab hba
    have he := (mem_edges_ofRules hg).2 hab.depends
    have hc := h (a, b) (mem_negativeCandidates.2 ((mem_negative_ofRules hg).2 hab))
    rw [decide_eq_true_eq, mem_dependencies_allNames he, path_ofRules_iff hg] at hc
    exact hc hba
  · rintro h ⟨a, b⟩ hm
    have hab := (mem_negative_ofRules hg).1 (mem_negativeCandidates.1 hm)
    have he := (mem_edges_ofRules hg).2 hab.depends
    rw [decide_eq_true_eq, mem_dependencies_allNames he, path_ofRules_iff hg]
    exact h a b hab

theorem noNegativeCycle_iff_exists_strata : NoNegativeCycle rules ↔ ∃ σ, Stratifies σ rules := by
  constructor
  · intro h
    exact ⟨g.rank, stratifies_rank hg h⟩
  · rintro ⟨σ, h⟩
    exact h.noNegativeCycle

end Search

theorem cycleFault?_eq_some {g : Graph} {names : List String} {f : Fault}
    (h : g.cycleFault? names = some f) : ∃ a b, f = .negativeCycle a b := by
  unfold cycleFault? at h
  obtain ⟨e, -, rfl⟩ := Option.map_eq_some_iff.1 h
  exact ⟨e.1, e.2, rfl⟩

end Graph

/-! ## Stratified graphs -/

/-- The graph of rules whose heads have names is returned if there is no negative cycle, and
otherwise refused with a negative edge. -/
theorem stratifiedGraph_cases {rules : List Rule} (hheads : ∀ r ∈ rules, r.head.name? ≠ none)
    (names : List String) :
    (NoNegativeCycle rules ∧ ∃ g, (stratifiedGraph rules names).outcome = .ok g) ∨
      (¬ NoNegativeCycle rules ∧
        ∃ a b, (stratifiedGraph rules names).outcome = .error (.fault (.negativeCycle a b))) := by
  obtain ⟨g, hg⟩ := Graph.ofRules_isOk hheads
  unfold stratifiedGraph Graph.checkStratified
  simp only [hg, Run.lift_malformed, Except.mapError, Run.ok_bind]
  cases hc : g.cycleFault? names with
  | none => exact .inl ⟨(Graph.cycleFault?_eq_none_iff hg).1 hc, g, rfl⟩
  | some f =>
    obtain ⟨a, b, rfl⟩ := Graph.cycleFault?_eq_some hc
    refine .inr ⟨fun h => ?_, a, b, rfl⟩
    rw [(Graph.cycleFault?_eq_none_iff hg).2 h] at hc
    cases hc

theorem Sound.noNegativeCycle {items : List Node} {ks : List Keyword} {p : Program}
    {t : ArityTables} {g : Graph} (h : Sound items ks p t g) : NoNegativeCycle p.rules :=
  (Graph.cycleFault?_eq_none_iff h.graph).1 h.strata

/-- Stratification is decided exactly: rules whose heads have names get their graph, whatever names
are passed in, exactly if they have strata, and are refused for a negative cycle otherwise. Every
description that is accepted has strata. -/
theorem stratifiedGraph_isOk_iff_strata :
    (∀ (rules : List Rule) (names : List String), (∀ r ∈ rules, r.head.name? ≠ none) →
      ((∃ g, (stratifiedGraph rules names).outcome = .ok g) ↔ ∃ σ, Stratifies σ rules) ∧
      ((¬ ∃ σ, Stratifies σ rules) → ∃ a b,
        (stratifiedGraph rules names).outcome = .error (.fault (.negativeCycle a b)))) ∧
    ∀ (items : List Node) (ks : List Keyword) (ws : List Warning),
      (validate items ks).outcome = .ok ws → ∃ σ, Stratifies σ (items.filterMap Node.rule?) := by
  refine ⟨fun rules names hheads => ?_, fun items ks ws h => ?_⟩
  · obtain ⟨g, hg⟩ := Graph.ofRules_isOk hheads
    rw [← Graph.noNegativeCycle_iff_exists_strata hg]
    rcases stratifiedGraph_cases hheads names with ⟨hc, g', ho⟩ | ⟨hc, a, b, ho⟩
    · exact ⟨⟨fun _ => hc, fun _ => ⟨g', ho⟩⟩, fun hn => absurd hc hn⟩
    · refine ⟨⟨fun ⟨g', ho'⟩ => ?_, fun h => absurd h hc⟩, fun _ => ⟨a, b, ho⟩⟩
      rw [ho] at ho'
      cases ho'
  · obtain ⟨p, t, g, hs⟩ := validate_isOk_iff.1 ⟨ws, h⟩
    rw [← (Program.ofItems_ok hs.program).2.2.1]
    exact (Graph.noNegativeCycle_iff_exists_strata hs.graph).1 hs.noNegativeCycle

/-- A negation below a disjunction leads down a stratum, and a negation that comes back has none. -/
theorem strata_of_two_games :
    (∃ σ, Stratifies σ [⟨.prop "win", [.disj [.prop "draw", .neg (.prop "lose")]]⟩,
      ⟨.prop "lose", [.neg (.rel "free" [.var "?x"])]⟩]) ∧
    ¬ ∃ σ, Stratifies σ [⟨.prop "win", [.disj [.prop "draw", .neg (.prop "lose")]]⟩,
      ⟨.prop "lose", [.prop "win"]⟩] := by
  constructor
  · refine (stratifiedGraph_isOk_iff_strata.1 _ [] (by decide)).1.1
      ⟨⟨.ofList ["win", "lose"], [("win", "draw"), ("win", "lose"), ("lose", "free")],
        [("win", "lose"), ("lose", "free")]⟩, ?_⟩
    decide +kernel
  · intro h
    obtain ⟨g, hg⟩ := (stratifiedGraph_isOk_iff_strata.1 _ [] (by decide)).1.2 h
    have hr : (stratifiedGraph [⟨.prop "win", [.disj [.prop "draw", .neg (.prop "lose")]]⟩,
      ⟨.prop "lose", [.prop "win"]⟩] []).outcome = .error (.fault (.negativeCycle "win" "lose")) := by
      decide +kernel
    rw [hr] at hg
    cases hg

end GameRules
