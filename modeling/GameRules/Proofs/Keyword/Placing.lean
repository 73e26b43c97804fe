/-
The placing of keywords, decided exactly. Five laws say where the keywords of a table may stand in a
graph and what they may come to depend on. The check passes exactly if no keyword breaks a law.
Otherwise it refuses the graph for the first law that is broken, and names the first keyword of the
table that breaks it; only where bodies use what they must not, it names the least such keyword.
-/
import GameRules.Proofs.First
import GameRules.Proofs.Graph.Session
import GameRules.Proofs.Keyword.Use

namespace GameRules.Keyword

/-! ## The laws -/

/-- The laws about the place of a keyword. -/
inductive Law where
  /-- Rules do not define what only facts may define. -/
  | facts
  /-- Rules do not define what only bodies may use. -/
  | heads
  /-- Bodies do not use what only heads may define. -/
  | bodies
  /-- What is the same in every turn does not come to depend on what changes from turn to turn. -/
  | turn
  /-- What is settled before the moves does not come to depend on them. -/
  | moves

namespace Law

/-- The laws in the order of the checks. -/
def all : List Law := [facts, heads, bodies, turn, moves]

def code : Law → String
  | facts => "E170"
  | heads => "E171"
  | bodies => "E172"
  | turn => "E173"
  | moves => "E174"

/-- The placement that puts a keyword under a law. -/
def placement : Law → Placement
  | facts => .factsOnly
  | heads => .bodyOnly
  | bodies => .headOnly
  | turn => .turnIndependent
  | moves => .actionIndependent

/-- The fault against a law that names a keyword. -/
def fault (ks : List Keyword) (name : String) : Law → Fault
  | facts => .ruleForFacts name
  | heads => .keywordInHead name
  | bodies => .keywordInBody name
  | turn => .turnDependence name (placed .turnMarker ks)
  | moves => .actionDependence name (placed .action ks)

theorem fault_code (ks : List Keyword) (name : String) (law : Law) :
    (law.fault ks name).code = law.code := by
  cases law <;> rfl

theorem fault_subject (ks : List Keyword) (name : String) (law : Law) :
    (law.fault ks name).subject = .name name := by
  cases law <;> rfl

section Graph

variable (g : Graph) (names : List String) (ks : List Keyword)

/-- A name comes to depend on a keyword with a placement that is among the given names. -/
def DependsOn (q : Placement) (name : String) : Prop :=
  ∃ m ∈ ks, q ∈ m.placement ∧ m.name ∈ names ∧ Path g.edges name m.name

/-- What a law forbids the names under it. -/
def Forbids (name : String) : Law → Prop
  | facts => name ∈ g.heads
  | heads => name ∈ g.heads
  | bodies => ∃ a, (a, name) ∈ g.edges
  | turn => DependsOn g names ks .turnMarker name
  | moves => DependsOn g names ks .action name

/-- A keyword is under a law and does what it forbids. -/
def BrokenBy (law : Law) (k : Keyword) : Prop :=
  law.placement ∈ k.placement ∧ law.Forbids g names ks k.name

/-- Some keyword of the table breaks a law. -/
def IsBroken (law : Law) : Prop := ∃ k ∈ ks, law.BrokenBy g names ks k

/-- The keyword that is named for breaking a law. -/
def Blames (k : Keyword) : Law → Prop
  | bodies => k ∈ ks ∧ bodies.BrokenBy g names ks k ∧
      ∀ k' ∈ ks, bodies.BrokenBy g names ks k' → k.name ≤ k'.name
  | law => FirstIn (law.BrokenBy g names ks) ks k

/-! ## The search for a keyword -/

/-- The test that a name has to fail under a law. -/
def forbids (name : String) : Law → Bool
  | facts => name ∈ g.heads
  | heads => name ∈ g.heads
  | bodies => name ∈ g.targets
  | turn => name ∈ turnDependents g names ks
  | moves => name ∈ actionDependents g names ks

/-- The name that the check of a law comes upon. -/
def search? : Law → Option String
  | bodies => g.targets.toList.find? ((placed .headOnly ks).contains ·)
  | law => (placed law.placement ks).find? (law.forbids g names ks)

end Graph

variable {g : Graph} {names : List String} {ks : List Keyword}

theorem forbids_iff {law : Law} {name : String} :
    law.forbids g names ks name = true ↔ law.Forbids g names ks name := by
  cases law <;>
    simp [forbids, Forbids, DependsOn, Graph.mem_targets, mem_turnDependents, mem_actionDependents]

/-- The first name under a law that fails its test belongs to the first keyword that breaks the
law. -/
theorem find?_placed_eq_some_iff {law : Law} {name : String} :
    (placed law.placement ks).find? (law.forbids g names ks) = some name ↔
      ∃ k, FirstIn (law.BrokenBy g names ks) ks k ∧ k.name = name := by
  unfold placed
  rw [List.find?_map, List.find?_filter, Option.map_eq_some_iff]
  simp only [find?_eq_some_iff_firstIn, decide_eq_true_eq, Function.comp_apply, forbids_iff]
  rfl

/-- A name that bodies use and must not is the name of a keyword that breaks the law. -/
theorem mem_targets_placed_iff (names : List String) {name : String} :
    name ∈ g.targets ∧ (placed .headOnly ks).contains name = true ↔
      ∃ k ∈ ks, bodies.BrokenBy g names ks k ∧ k.name = name := by
  rw [List.contains_eq_mem, decide_eq_true_eq, mem_placed, Graph.mem_targets]
  constructor
  · rintro ⟨hused, k, hk, hq, rfl⟩
    exact ⟨k, hk, ⟨hq, hused⟩, rfl⟩
  · rintro ⟨k, hk, ⟨hq, hused⟩, rfl⟩
    exact ⟨hused, k, hk, hq, rfl⟩

/-- The check of a law comes upon something exactly if the law is broken. -/
theorem search?_eq_none_iff {law : Law} :
    law.search? g names ks = none ↔ ¬ law.IsBroken g names ks := by
  have hbodies : bodies.search? g names ks = none ↔ ¬ bodies.IsBroken g names ks := by
    unfold search? IsBroken
    rw [List.find?_eq_none]
    constructor
    · rintro h ⟨k, hk, hb⟩
      obtain ⟨hm, hc⟩ := (mem_targets_placed_iff names).2 ⟨k, hk, hb, rfl⟩
      exact h k.name hm hc
    · intro h name hm hc
      obtain ⟨k, hk, hb, -⟩ := (mem_targets_placed_iff names).1 ⟨hm, hc⟩
      exact h ⟨k, hk, hb⟩
  have hplaced : ∀ l : Law, (placed l.placement ks).find? (l.forbids g names ks) = none ↔
      ¬ l.IsBroken g names ks := by
    intro l
    rw [find?_placed_eq_none_iff]
    simp only [forbids_iff, IsBroken, BrokenBy, not_exists, not_and]
  cases law with
  | bodies => exact hbodies
  | facts => exact hplaced facts
  | heads => exact hplaced heads
  | turn => exact hplaced turn
  | moves => exact hplaced moves

/-- The targets are searched in increasing order, so the name that is found is the least. -/
theorem search?_bodies_least {name : String} (h : bodies.search? g names ks = some name) :
    ∃ k, bodies.Blames g names ks k ∧ k.name = name := by
  obtain ⟨before, after, hcut, hname, hbefore⟩ := find?_eq_some_iff_firstIn.1 h
  have hmem : name ∈ g.targets := by
    rw [NameSet.mem_def, hcut]
    simp
  obtain ⟨k, hk, hb, rfl⟩ := (mem_targets_placed_iff names).1 ⟨hmem, hname⟩
  refine ⟨k, ⟨hk, hb, fun k' hk' hb' => ?_⟩, rfl⟩
  obtain ⟨hmem', hname'⟩ := (mem_targets_placed_iff names).2 ⟨k', hk', hb', rfl⟩
  have hincreasing := g.targets.increasing
  rw [NameSet.mem_def, hcut, List.mem_append, List.mem_cons] at hmem'
  rw [hcut, List.pairwise_append, List.pairwise_cons] at hincreasing
  rcases hmem' with hearlier | heq | hlater
  · exact absurd hname' (hbefore _ hearlier)
  · exact heq ▸ String.le_refl _
  · have hlt : k.name < k'.name := hincreasing.2.1.1 _ hlater
    exact String.not_lt.1 (String.lt_asymm hlt)

/-- The check of a law comes upon the name of the keyword that is to blame, and of no other. -/
theorem search?_eq_some_iff {law : Law} {name : String} :
    law.search? g names ks = some name ↔ ∃ k, law.Blames g names ks k ∧ k.name = name := by
  cases law with
  | facts => exact find?_placed_eq_some_iff
  | heads => exact find?_placed_eq_some_iff
  | turn => exact find?_placed_eq_some_iff
  | moves => exact find?_placed_eq_some_iff
  | bodies =>
    constructor
    · exact search?_bodies_least
    · rintro ⟨k, ⟨hk, hb, hleast⟩, rfl⟩
      cases hs : bodies.search? g names ks with
      | none => exact absurd ⟨k, hk, hb⟩ (search?_eq_none_iff.1 hs)
      | some name =>
        -- two least names are equal
        obtain ⟨k', ⟨hk', hb', hleast'⟩, rfl⟩ := search?_bodies_least hs
        rw [String.le_antisymm (hleast k' hk' hb') (hleast' k hk hb)]

theorem isBroken_iff_blames {law : Law} :
    law.IsBroken g names ks ↔ ∃ k, law.Blames g names ks k := by
  rw [← not_iff_not, ← search?_eq_none_iff, Option.eq_none_iff_forall_ne_some]
  simp only [ne_eq, search?_eq_some_iff, not_exists, not_and]
  constructor
  · exact fun h k hk => h k.name k hk rfl
  · exact fun h name k hk => absurd hk (h k)

end Law

/-! ## The check -/

section Check

variable (g : Graph) (names : List String) (ks : List Keyword)

/-- The fault that the laws find, one after another. -/
def lawFault? : Option Fault :=
  Law.all.findSome? fun law => (law.search? g names ks).map (law.fault ks)

theorem checkPlacing_outcome :
    (checkPlacing g names ks).outcome =
      match lawFault? g names ks with
      | none => .ok ()
      | some f => .error (.fault f) := by
  have hlaws : lawFault? g names ks =
      ((headFault? g ks).or (bodyFault? g ks)).or
        ((turnFault? g names ks).or (actionFault? g names ks)) := by
    unfold lawFault? Law.all headFault?
    simp only [findSome?_cons_eq_or, List.findSome?_nil, Option.or_none, Option.or_assoc]
    rfl
  rw [hlaws]
  unfold checkPlacing
  cases (headFault? g ks).or (bodyFault? g ks) with
  | some f => rfl
  | none =>
    cases (turnFault? g names ks).or (actionFault? g names ks) with
    | some f => rfl
    | none => rfl

variable {g names ks}

theorem lawFault?_eq_none_iff :
    lawFault? g names ks = none ↔ ∀ law : Law, ¬ law.IsBroken g names ks := by
  unfold lawFault?
  rw [List.findSome?_eq_none_iff]
  simp only [Option.map_eq_none_iff, Law.search?_eq_none_iff]
  constructor
  · intro h law
    cases law <;> exact h _ (by simp [Law.all])
  · exact fun h law _ => h law

theorem lawFault?_eq_some_iff {f : Fault} :
    lawFault? g names ks = some f ↔ ∃ law k, FirstIn (Law.IsBroken g names ks) Law.all law ∧
      law.Blames g names ks k ∧ f = law.fault ks k.name := by
  unfold lawFault?
  rw [findSome?_eq_some_iff_firstOf]
  -- a law reports a fault exactly if it blames a keyword for it
  have hreport : ∀ (law : Law) (f : Fault), (law.search? g names ks).map (law.fault ks) = some f ↔
      ∃ k, law.Blames g names ks k ∧ law.fault ks k.name = f := by
    intro law f
    rw [Option.map_eq_some_iff]
    simp only [Law.search?_eq_some_iff]
    constructor
    · rintro ⟨name, ⟨k, hk, rfl⟩, hf⟩
      exact ⟨k, hk, hf⟩
    · rintro ⟨k, hk, hf⟩
      exact ⟨k.name, ⟨k, hk, rfl⟩, hf⟩
  have hbroken : (fun law : Law => ∃ f, (law.search? g names ks).map (law.fault ks) = some f) =
      Law.IsBroken g names ks := by
    funext law
    simp only [hreport, Law.isBroken_iff_blames]
    refine propext ⟨?_, ?_⟩
    · rintro ⟨f, k, hk, -⟩
      exact ⟨k, hk⟩
    · rintro ⟨k, hk⟩
      exact ⟨_, k, hk, rfl⟩
  unfold FirstOf
  rw [hbroken]
  simp only [hreport]
  constructor
  · rintro ⟨law, hfirst, k, hk, rfl⟩
    exact ⟨law, k, hfirst, hk, rfl⟩
  · rintro ⟨law, k, hfirst, hk, rfl⟩
    exact ⟨law, hfirst, k, hk, rfl⟩

end Check

/-- The placing of keywords is decided exactly, for every graph, all names and every table. The check
passes if no keyword breaks a law. Otherwise the fault is against the first law that is broken, and
its subject is the keyword to blame: the first of the table that breaks the law, or the least one if
the law is about bodies. -/
theorem checkPlacing_iff_laws (g : Graph) (names : List String) (ks : List Keyword) :
    ((checkPlacing g names ks).outcome = .ok () ↔
      ∀ law : Law, ∀ k ∈ ks, ¬ law.BrokenBy g names ks k) ∧
    (∀ e, (checkPlacing g names ks).outcome = .error e ↔
      ∃ law k, FirstIn (Law.IsBroken g names ks) Law.all law ∧ law.Blames g names ks k ∧
        e = .fault (law.fault ks k.name)) ∧
    ∀ (law : Law) (name : String), (law.fault ks name).code = law.code ∧
      (law.fault ks name).subject = .name name := by
  refine ⟨?_, fun e => ?_, fun law name => ⟨law.fault_code ks name, law.fault_subject ks name⟩⟩
  · have hnone : lawFault? g names ks = none ↔ ∀ law : Law, ∀ k ∈ ks, ¬ law.BrokenBy g names ks k := by
      simp only [lawFault?_eq_none_iff, Law.IsBroken, not_exists, not_and]
    rw [checkPlacing_outcome, ← hnone]
    cases lawFault? g names ks <;> simp
  · rw [checkPlacing_outcome]
    cases hf : lawFault? g names ks with
    | none =>
      have hnone := lawFault?_eq_none_iff.1 hf
      refine iff_of_false (by simp) ?_
      rintro ⟨law, k, hfirst, -⟩
      exact hnone law hfirst.holds
    | some f =>
      simp only [Except.error.injEq]
      constructor
      · rintro rfl
        obtain ⟨law, k, hfirst, hk, rfl⟩ := lawFault?_eq_some_iff.1 hf
        exact ⟨law, k, hfirst, hk, rfl⟩
      · rintro ⟨law, k, hfirst, hk, rfl⟩
        have hf' := lawFault?_eq_some_iff.2 ⟨law, k, hfirst, hk, rfl⟩
        rw [hf] at hf'
        cases hf'
        rfl

end GameRules.Keyword
