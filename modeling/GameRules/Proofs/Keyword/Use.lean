/-
The use of keywords. What a table of keywords asks of a program is said here of its sentences, its
functions and the dependency of its names: which keywords occur and with how many arguments, which
ones rules may define or use, and which may not come to depend on the turn or on the moves. The
checks on tables and graph find a fault exactly if the program breaks one of these.
-/
import GameRules.Keyword.Use
import GameRules.Proofs.Arity.Uniform
import GameRules.Proofs.Graph.Dependency

namespace GameRules.Keyword

/-! ## Occurrence and arity -/

/-- Some sentence of the program goes by a name. -/
def Occurs (facts : List Node) (rules : List Rule) (name : String) : Prop :=
  ∃ s, SentenceOf facts rules s ∧ s.name? = some name

/-- Required keywords occur, each keyword that occurs has its arity, and none names a function. -/
structure Spelled (facts : List Node) (rules : List Rule) (ks : List Keyword) : Prop where
  present : ∀ k ∈ ks, k.required = true → Occurs facts rules k.name
  arity : ∀ k ∈ ks, ∀ s n, SentenceOf facts rules s → s.name? = some k.name → s.arity? = some n →
    (n : Int) = k.arity
  functions : ∀ k ∈ ks, ∀ f, FunctionOf facts rules f → f.name ≠ k.name

theorem sentenceFault?_eq_none_iff {sentences : ArityTable} {k : Keyword} :
    sentenceFault? sentences k = none ↔
      (k.required = true → k.name ∈ sentences.names) ∧
        ∀ j, sentences.arity? k.name = some j → j = k.arity := by
  unfold sentenceFault?
  cases ha : sentences.arity? k.name with
  | none =>
    have hn := ArityTable.arity?_eq_none_iff.1 ha
    simp [hn]
  | some j =>
    have hn := ArityTable.mem_names_of_arity? ha
    simp [hn]

theorem functionFault?_eq_none_iff {functions : ArityTable} {ks : List Keyword} :
    functionFault? functions ks = none ↔ ∀ k ∈ ks, k.name ∉ functions.names := by
  unfold functionFault? names
  rw [Option.map_eq_none_iff, List.find?_eq_none]
  simp only [decide_eq_true_eq, NameSet.mem_ofList, List.mem_map, not_exists, not_and]
  constructor
  · intro h k hk hm
    exact h k.name hm k hk rfl
  · rintro h name hm k hk rfl
    exact h k hk hm

section Tables

variable {facts : List Node} {rules : List Rule} {t : ArityTables}
  (hb : ArityTables.build facts rules = .ok t)
include hb

/-- The table of sentences lists exactly the names that occur. -/
theorem mem_names_iff_occurs {name : String} : name ∈ t.sentences.names ↔ Occurs facts rules name := by
  obtain ⟨hread, ht⟩ := ArityTables.build_ok hb
  rw [ht.sentences.mem_names]
  simp only [mem_sentenceReadings]
  constructor
  · rintro ⟨k, s, hs, hn, -⟩
    exact ⟨s, hs, hn⟩
  · rintro ⟨s, hs, hn⟩
    obtain ⟨⟨name', k⟩, hr⟩ := Option.ne_none_iff_exists'.1 (hread s (mem_sentenceOccurrences.2 hs))
    exact ⟨k, s, hs, hn, (Node.reading?_eq_some.1 hr).2⟩

/-- The tables of a program agree with the keywords exactly if the program does. -/
theorem arityFault?_eq_none_iff {ks : List Keyword} :
    arityFault? t.sentences t.functions ks = none ↔ Spelled facts rules ks := by
  have ht := (ArityTables.build_ok hb).2
  unfold arityFault?
  rw [Option.or_eq_none_iff, List.findSome?_eq_none_iff, functionFault?_eq_none_iff]
  simp only [sentenceFault?_eq_none_iff, mem_names_iff_occurs hb, ht.functions.mem_names,
    mem_nestedReadings]
  constructor
  · rintro ⟨hs, hf⟩
    refine ⟨fun k hk => (hs k hk).1, fun k hk s n hsn hn ha => ?_, fun k hk f hfn hn => ?_⟩
    · refine (hs k hk).2 n ((ht.sentences k.name n).2 ⟨n, ?_, rfl⟩)
      exact mem_sentenceReadings.2 ⟨s, hsn, hn, ha⟩
    · exact hf k hk ⟨f.args.length, f, hfn, hn, rfl⟩
  · rintro ⟨hp, ha, hf⟩
    refine ⟨fun k hk => ⟨hp k hk, fun j hj => ?_⟩, ?_⟩
    · obtain ⟨n, hn, rfl⟩ := (ht.sentences k.name j).1 hj
      obtain ⟨s, hs, hsn, hsa⟩ := mem_sentenceReadings.1 hn
      exact ha k hk s n hs hsn hsa
    · rintro k hk ⟨n, f, hfn, hn, -⟩
      exact hf k hk f hfn hn

end Tables

theorem arityFault?_code {sentences functions : ArityTable} {ks : List Keyword} {f : Fault}
    (h : arityFault? sentences functions ks = some f) : f.code ∈ ["E140", "E141", "E142"] := by
  unfold arityFault? at h
  rcases Option.or_eq_some_iff.1 h with h | ⟨-, h⟩
  · obtain ⟨k, -, hk⟩ := List.exists_of_findSome?_eq_some h
    unfold sentenceFault? at hk
    split at hk
    · split at hk
      · cases hk
        simp [Fault.code]
      · cases hk
    · split at hk
      · cases hk
      · cases hk
        simp [Fault.code]
  · unfold functionFault? at h
    obtain ⟨name, -, rfl⟩ := Option.map_eq_some_iff.1 h
    simp [Fault.code]

/-! ## Places and dependence -/

/-- Rules neither define nor use keywords where these may not stand, and no keyword comes to depend
on a name of the program that it must not depend on. -/
structure Placed (facts : List Node) (rules : List Rule) (ks : List Keyword) : Prop where
  heads : ∀ k ∈ ks, .factsOnly ∈ k.placement ∨ .bodyOnly ∈ k.placement → ¬ Defines rules k.name
  bodies : ∀ k ∈ ks, .headOnly ∈ k.placement → ∀ a, ¬ Depends rules a k.name
  turn : ∀ k ∈ ks, .turnIndependent ∈ k.placement → ∀ m ∈ ks, .turnMarker ∈ m.placement →
    Occurs facts rules m.name → ¬ Reaches rules k.name m.name
  action : ∀ k ∈ ks, .actionIndependent ∈ k.placement → ∀ m ∈ ks, .action ∈ m.placement →
    Occurs facts rules m.name → ¬ Reaches rules k.name m.name

section Graph

variable {g : Graph} {names : List String} {ks : List Keyword}

theorem find?_placed_eq_none_iff {q : Placement} {test : String → Bool} :
    (placed q ks).find? test = none ↔ ∀ k ∈ ks, q ∈ k.placement → ¬ test k.name = true := by
  rw [List.find?_eq_none]
  simp only [mem_placed]
  constructor
  · intro h k hk hq
    exact h k.name ⟨k, hk, hq, rfl⟩
  · rintro h name ⟨k, hk, hq, rfl⟩
    exact h k hk hq

theorem headFault?_eq_none_iff :
    headFault? g ks = none ↔
      ∀ k ∈ ks, .factsOnly ∈ k.placement ∨ .bodyOnly ∈ k.placement → k.name ∉ g.heads := by
  unfold headFault?
  rw [Option.or_eq_none_iff, Option.map_eq_none_iff, Option.map_eq_none_iff,
    find?_placed_eq_none_iff, find?_placed_eq_none_iff]
  simp only [decide_eq_true_eq, or_imp]
  exact ⟨fun h k hk => ⟨h.1 k hk, h.2 k hk⟩, fun h => ⟨fun k hk => (h k hk).1, fun k hk => (h k hk).2⟩⟩

theorem bodyFault?_eq_none_iff :
    bodyFault? g ks = none ↔ ∀ k ∈ ks, .headOnly ∈ k.placement → k.name ∉ g.targets := by
  unfold bodyFault?
  rw [Option.map_eq_none_iff, List.find?_eq_none]
  simp only [List.contains_eq_mem, decide_eq_true_eq, mem_placed, not_exists, not_and]
  constructor
  · intro h k hk hp hm
    exact h k.name hm k hk hp rfl
  · rintro h name hm k hk hp rfl
    exact h k hk hp hm

theorem mem_turnDependents {x : String} :
    x ∈ turnDependents g names ks ↔
      ∃ m ∈ ks, .turnMarker ∈ m.placement ∧ m.name ∈ names ∧ Path g.edges x m.name := by
  unfold turnDependents
  rw [Graph.mem_dependents]
  simp only [List.contains_eq_mem, decide_eq_true_eq, mem_placed]
  constructor
  · rintro ⟨a, ha, ⟨m, hm, hp, rfl⟩, p⟩
    exact ⟨m, hm, hp, ha, p⟩
  · rintro ⟨m, hm, hp, ha, p⟩
    exact ⟨m.name, ha, ⟨m, hm, hp, rfl⟩, p⟩

theorem mem_actionDependents {x : String} :
    x ∈ actionDependents g names ks ↔
      ∃ m ∈ ks, .action ∈ m.placement ∧ m.name ∈ names ∧ Path g.edges x m.name := by
  unfold actionDependents
  rw [NameSet.mem_foldl_union]
  simp only [NameSet.not_mem_empty, false_or, List.mem_map, mem_placed]
  constructor
  · rintro ⟨t, ⟨a, ⟨m, hm, hp, rfl⟩, rfl⟩, hx⟩
    obtain ⟨ha, p⟩ := Graph.mem_dependents_beq.1 hx
    exact ⟨m, hm, hp, ha, p⟩
  · rintro ⟨m, hm, hp, ha, p⟩
    refine ⟨_, ⟨m.name, ⟨m, hm, hp, rfl⟩, rfl⟩, ?_⟩
    exact Graph.mem_dependents_beq.2 ⟨ha, p⟩

theorem turnFault?_eq_none_iff :
    turnFault? g names ks = none ↔ ∀ k ∈ ks, .turnIndependent ∈ k.placement →
      ∀ m ∈ ks, .turnMarker ∈ m.placement → m.name ∈ names → ¬ Path g.edges k.name m.name := by
  unfold turnFault?
  rw [Option.map_eq_none_iff, find?_placed_eq_none_iff]
  simp only [decide_eq_true_eq, mem_turnDependents, not_exists, not_and]

theorem actionFault?_eq_none_iff :
    actionFault? g names ks = none ↔ ∀ k ∈ ks, .actionIndependent ∈ k.placement →
      ∀ m ∈ ks, .action ∈ m.placement → m.name ∈ names → ¬ Path g.edges k.name m.name := by
  unfold actionFault?
  rw [Option.map_eq_none_iff, find?_placed_eq_none_iff]
  simp only [decide_eq_true_eq, mem_actionDependents, not_exists, not_and]

/-- The checks on the graph of a program pass exactly if its keywords are in their places. -/
theorem placing_eq_none_iff {facts : List Node} {rules : List Rule} (hg : Graph.ofRules rules = .ok g)
    (hnames : ∀ name, name ∈ names ↔ Occurs facts rules name) :
    (headFault? g ks).or (bodyFault? g ks) = none ∧
        (turnFault? g names ks).or (actionFault? g names ks) = none ↔ Placed facts rules ks := by
  rw [Option.or_eq_none_iff, Option.or_eq_none_iff, headFault?_eq_none_iff, bodyFault?_eq_none_iff,
    turnFault?_eq_none_iff, actionFault?_eq_none_iff]
  simp only [Graph.mem_heads_ofRules hg, Graph.mem_targets_ofRules hg, Graph.path_ofRules_iff hg,
    hnames, not_exists]
  constructor
  · rintro ⟨⟨hh, hb⟩, ht, ha⟩
    exact ⟨hh, hb, ht, ha⟩
  · rintro ⟨hh, hb, ht, ha⟩
    exact ⟨⟨hh, hb⟩, ht, ha⟩

theorem places_code {f : Fault} (h : (headFault? g ks).or (bodyFault? g ks) = some f) :
    f.code ∈ ["E170", "E171", "E172"] := by
  unfold headFault? bodyFault? at h
  simp only [Option.or_eq_some_iff, Option.map_eq_some_iff] at h
  obtain (⟨name, -, rfl⟩ | ⟨-, name, -, rfl⟩) | ⟨-, name, -, rfl⟩ := h <;> simp [Fault.code]

theorem dependence_code {f : Fault} (h : (turnFault? g names ks).or (actionFault? g names ks) = some f) :
    f.code ∈ ["E173", "E174"] := by
  unfold turnFault? actionFault? at h
  simp only [Option.or_eq_some_iff, Option.map_eq_some_iff] at h
  obtain ⟨name, -, rfl⟩ | ⟨-, name, -, rfl⟩ := h <;> simp [Fault.code]

theorem placing_code (g : Graph) (names : List String) (ks : List Keyword) {f : Fault}
    (h : (headFault? g ks).or (bodyFault? g ks) = some f ∨
      (turnFault? g names ks).or (actionFault? g names ks) = some f) :
    f.code ∈ ["E170", "E171", "E172", "E173", "E174"] := by
  rcases h with h | h
  · exact List.mem_append_left ["E173", "E174"] (places_code h)
  · exact List.mem_append_right ["E170", "E171", "E172"] (dependence_code h)

end Graph

end GameRules.Keyword
