/-
The names that the stages of a validation work with. The tables, the graph and the search for
undefined names each read the sentences of a program on their own, and come to the same names. So no
search through the graph leaves the names it is given, the restriction on recursion finds an entry
for every name it looks up, and the undefined names can be read off the graph.
-/
import GameRules.Proofs.Program.Warnings

namespace GameRules

/-- The names of some facts. -/
def factNames (facts : List Node) : NameSet := .ofList (facts.filterMap Node.name?)

/-- The lists of names that the searches of a validation are given: the names of the table as they
stand, for keywords; sorted, for ancestors; and with those of the graph, for negative cycles. -/
def Graph.searched (g : Graph) (names : List String) : List (List String) :=
  [names, (NameSet.ofList names).toList, g.allNames names]

/-- The stages agree on the names of some facts and rules. -/
structure AgreeOnNames (facts : List Node) (rules : List Rule) (t : ArityTables) (g : Graph) : Prop where
  /-- No sentence goes without a name. -/
  named : ∀ s, SentenceOf facts rules s → s.name? ≠ none
  table : NameSet.ofList t.sentences.names = (factNames facts).union (g.heads.union g.targets)
  targets : g.targets = usedNames rules
  /-- No search, up or down, leaves the names it is given. -/
  searches : ∀ given ∈ g.searched t.sentences.names, ∀ matching x,
    x ∈ g.dependencies given matching ∨ x ∈ g.dependents given matching → x ∈ given
  /-- Under any keywords, what depends on the turn or on the moves is in the table. -/
  dependents : ∀ ks x, x ∈ Keyword.turnDependents g t.sentences.names ks ∨
    x ∈ Keyword.actionDependents g t.sentences.names ks → x ∈ t.sentences.names
  /-- Every relation of a body has an entry among the ancestors, with names of the table. -/
  entries : ∀ r ∈ rules, ∀ name args negated, r.Uses (.rel name args) negated →
    ∃ above, (g.ancestors (.ofList t.sentences.names)).lookup name = some above ∧
      ∀ x ∈ above, x ∈ t.sentences.names
  /-- Whatever stood for missing entries, the restriction on recursion would find the same. -/
  missing : ∀ more, Rule.growthFaultIn? (g.ancestors (.ofList t.sentences.names) ++ more) rules =
    Rule.growthFaultIn? (g.ancestors (.ofList t.sentences.names)) rules

/-- The targets of a graph that are neither heads nor names of facts and that the game does not
supply, in increasing order. -/
def Graph.undefinedNames (g : Graph) (facts : List Node) : List String :=
  g.targets.toList.filter fun name =>
    name ∉ g.heads ∧ name ∉ factNames facts ∧ name ≠ "true" ∧ name ≠ "does"

/-! ## Facts, heads and targets -/

theorem mem_factNames {facts : List Node} {name : String} :
    name ∈ factNames facts ↔ ∃ s ∈ facts, s.name? = some name := by
  rw [factNames, NameSet.mem_ofList, List.mem_filterMap]

/-- A rule with a named head uses exactly the names that it makes its head depend on. -/
theorem exists_depends_iff {rules : List Rule} (hheads : ∀ r ∈ rules, r.head.name? ≠ none)
    {name : String} :
    (∃ a, Depends rules a name) ↔ ∃ r ∈ rules, ∃ s negated, r.Uses s negated ∧ s.name? = some name := by
  constructor
  · rintro ⟨a, r, hr, negated, -, s, hs, hn⟩
    exact ⟨r, hr, s, negated, hs, hn⟩
  · rintro ⟨r, hr, s, negated, hs, hn⟩
    obtain ⟨a, ha⟩ := Option.ne_none_iff_exists'.1 (hheads r hr)
    exact ⟨a, r, hr, negated, ha, s, hs, hn⟩

section Agree

variable {facts : List Node} {rules : List Rule} {t : ArityTables} {g : Graph}
  (ht : ArityTables.build facts rules = .ok t) (hg : Graph.ofRules rules = .ok g)
include ht hg

theorem mem_targets_iff_used {name : String} :
    name ∈ g.targets ↔ ∃ r ∈ rules, ∃ s negated, r.Uses s negated ∧ s.name? = some name := by
  rw [Graph.mem_targets_ofRules hg, exists_depends_iff (ArityTables.head_named ht)]

/-- The table of sentences lists the names of facts, the heads and the targets. -/
theorem mem_names_iff_graph {name : String} :
    name ∈ t.sentences.names ↔ name ∈ factNames facts ∨ name ∈ g.heads ∨ name ∈ g.targets := by
  rw [Keyword.mem_names_iff_occurs ht, mem_factNames, Graph.mem_heads_ofRules hg,
    mem_targets_iff_used ht hg]
  unfold Keyword.Occurs SentenceOf Defines
  constructor
  · rintro ⟨s, hs | ⟨r, hr, rfl | ⟨negated, hu⟩⟩, hn⟩
    · exact .inl ⟨s, hs, hn⟩
    · exact .inr (.inl ⟨r, hr, hn⟩)
    · exact .inr (.inr ⟨r, hr, s, negated, hu, hn⟩)
  · rintro (⟨s, hs, hn⟩ | ⟨r, hr, hn⟩ | ⟨r, hr, s, negated, hu, hn⟩)
    · exact ⟨s, .inl hs, hn⟩
    · exact ⟨r.head, .inr ⟨r, hr, .inl rfl⟩, hn⟩
    · exact ⟨s, .inr ⟨r, hr, .inr ⟨negated, hu⟩⟩, hn⟩

/-- Both ends of every edge are listed. -/
theorem ends_mem_names {a b : String} (he : (a, b) ∈ g.edges) :
    a ∈ t.sentences.names ∧ b ∈ t.sentences.names := by
  obtain ⟨r, hr, negated, ha, hs⟩ := (Graph.mem_edges_ofRules hg).1 he
  constructor
  · exact (mem_names_iff_graph ht hg).2 (.inr (.inl ((Graph.mem_heads_ofRules hg).2 ⟨r, hr, ha⟩)))
  · exact (mem_names_iff_graph ht hg).2
      (.inr (.inr ((Graph.mem_targets_ofRules hg).2 ⟨a, r, hr, negated, ha, hs⟩)))

theorem mem_allNames_iff {x : String} :
    x ∈ g.allNames t.sentences.names ↔ x ∈ t.sentences.names := by
  unfold Graph.allNames
  rw [List.mem_append, List.mem_append, Graph.mem_starts, ← NameSet.mem_def,
    Graph.mem_targets_ofRules hg]
  simp only [← Graph.mem_edges_ofRules hg]
  constructor
  · rintro ((hx | ⟨b, he⟩) | ⟨a, he⟩)
    · exact hx
    · exact (ends_mem_names ht hg he).1
    · exact (ends_mem_names ht hg he).2
  · exact fun hx => .inl (.inl hx)

/-- All searches are given the same names. -/
theorem mem_searched_iff {given : List String} (h : given ∈ g.searched t.sentences.names) {x : String} :
    x ∈ given ↔ x ∈ t.sentences.names := by
  simp only [Graph.searched, List.mem_cons, List.not_mem_nil, or_false] at h
  rcases h with rfl | rfl | rfl
  · rfl
  · exact NameSet.mem_ofList
  · exact mem_allNames_iff ht hg

/-- A path lies in the table or outside it. -/
theorem mem_names_iff_of_path {a b : String} (p : Path g.edges a b) :
    a ∈ t.sentences.names ↔ b ∈ t.sentences.names := by
  induction p with
  | refl a => rfl
  | step he _ ih =>
    obtain ⟨ha, hb⟩ := ends_mem_names ht hg he
    exact (iff_of_true ha hb).trans ih

theorem mem_of_searched {given : List String} (h : given ∈ g.searched t.sentences.names)
    {matching : String → Bool} {x : String}
    (hx : x ∈ g.dependencies given matching ∨ x ∈ g.dependents given matching) : x ∈ given := by
  rw [Graph.mem_dependencies, Graph.mem_dependents] at hx
  rw [mem_searched_iff ht hg h]
  rcases hx with ⟨a, ha, -, p⟩ | ⟨a, ha, -, p⟩
  · exact (mem_names_iff_of_path ht hg p).1 ((mem_searched_iff ht hg h).1 ha)
  · exact (mem_names_iff_of_path ht hg p).2 ((mem_searched_iff ht hg h).1 ha)

theorem mem_names_of_dependents {ks : List Keyword} {x : String}
    (hx : x ∈ Keyword.turnDependents g t.sentences.names ks ∨
      x ∈ Keyword.actionDependents g t.sentences.names ks) : x ∈ t.sentences.names := by
  rw [Keyword.mem_turnDependents, Keyword.mem_actionDependents] at hx
  rcases hx with ⟨m, -, -, hm, p⟩ | ⟨m, -, -, hm, p⟩
  · exact (mem_names_iff_of_path ht hg p).2 hm
  · exact (mem_names_iff_of_path ht hg p).2 hm

theorem lookup_ancestors_of_uses {r : Rule} (hr : r ∈ rules) {name : String} {args : List Node}
    {negated : Bool} (hu : r.Uses (.rel name args) negated) :
    (g.ancestors (.ofList t.sentences.names)).lookup name =
      some (g.dependencies (NameSet.ofList t.sentences.names).toList (· == name)) := by
  have hn : name ∈ g.targets := (mem_targets_iff_used ht hg).2 ⟨r, hr, _, negated, hu, rfl⟩
  rw [Graph.lookup_ancestors, if_pos]
  exact NameSet.mem_ofList.2 ((mem_names_iff_graph ht hg).2 (.inr (.inr hn)))

/-- Facts and rules whose tables are built have stages that agree. -/
theorem agreeOnNames : AgreeOnNames facts rules t g where
  named := by
    intro s hs hn
    exact (ArityTables.build_ok ht).1 s (mem_sentenceOccurrences.2 hs) (by simp [Node.reading?, hn])
  table := by
    refine NameSet.ext fun x => ?_
    rw [NameSet.mem_ofList, mem_names_iff_graph ht hg, NameSet.mem_union, NameSet.mem_union]
  targets := by
    refine NameSet.ext fun x => ?_
    rw [mem_targets_iff_used ht hg, mem_usedNames]
  searches := fun _ h _ _ hx => mem_of_searched ht hg h hx
  dependents := fun _ _ hx => mem_names_of_dependents ht hg hx
  entries := by
    intro r hr name args negated hu
    refine ⟨_, lookup_ancestors_of_uses ht hg hr hu, fun x hx => ?_⟩
    exact NameSet.mem_ofList.1 (mem_of_searched ht hg (by simp [Graph.searched]) (.inl hx))
  missing := by
    refine fun more => Rule.growthFaultIn?_congr fun r hr name args hu => ?_
    rw [List.lookup_append, lookup_ancestors_of_uses ht hg hr hu.uses, Option.some_or]

end Agree

/-! ## Undefined names -/

theorem mem_undefinedNames {facts : List Node} {rules : List Rule} {t : ArityTables} {g : Graph}
    (ht : ArityTables.build facts rules = .ok t) (hg : Graph.ofRules rules = .ok g) {name : String} :
    name ∈ g.undefinedNames facts ↔ IsUndefined facts rules name := by
  unfold Graph.undefinedNames IsUndefined
  rw [List.mem_filter, ← NameSet.mem_def, mem_targets_iff_used ht hg, decide_eq_true_iff,
    Graph.mem_heads_ofRules hg, mem_factNames]
  simp only [Defines, not_exists, not_and]
  tauto

theorem undefined_subjects {items : List Node} {ks : List Keyword} {ws : List Warning}
    (h : (validate items ks).outcome = .ok ws) :
    ∃ g, Graph.ofRules (rulesOf items) = .ok g ∧
      (ws.filter (·.code = "W190")).map (·.diagnostic.subject) =
        (g.undefinedNames (factsOf items)).map .name := by
  obtain ⟨p, t, g, hs⟩ := validate_isOk_iff.1 ⟨ws, h⟩
  have ht := hs.tables
  have hg := hs.graph
  rw [facts_ofItems hs.program, rules_ofItems hs.program] at ht
  rw [rules_ofItems hs.program] at hg
  refine ⟨g, hg, ?_⟩
  obtain ⟨shared, undefined, he, rfl⟩ := exists_earned h
  -- both lists are increasing and have the same members
  have hundefined : undefined = g.undefinedNames (factsOf items) := by
    refine he.order_undefined.eq_of_mem_iff (g.targets.increasing.filter _) fun x => ?_
    rw [he.mem_undefined, ← mem_undefinedNames ht hg]
  rw [(filter_warningsFor _ shared undefined).2.2, List.map_map, hundefined]
  rfl

/-- Wherever tables are built, the stages agree on the names. In an accepted description the
subjects of the warnings for undefined names are those that the graph gives. -/
theorem stages_agree_on_names :
    (∀ facts rules t, ArityTables.build facts rules = .ok t →
      ∃ g, Graph.ofRules rules = .ok g ∧ AgreeOnNames facts rules t g) ∧
    ∀ items ks ws, (validate items ks).outcome = .ok ws →
      ∃ g, Graph.ofRules (rulesOf items) = .ok g ∧
        (ws.filter (·.code = "W190")).map (·.diagnostic.subject) =
          (g.undefinedNames (factsOf items)).map .name := by
  constructor
  · intro facts rules t ht
    obtain ⟨g, hg⟩ := Graph.ofRules_isOk (ArityTables.head_named ht)
    exact ⟨g, hg, agreeOnNames ht hg⟩
  · exact fun _ _ _ h => undefined_subjects h

/-- A game whose rule uses names below a disjunction and a negation, one of them supplied by the game
and one undefined. -/
def lineGame : List Node :=
  [.rel "cell" [.const "a"],
    .rule (.rel "line" [.var "?x"]) [.rel "cell" [.var "?x"],
      .disj [.rel "true" [.fn "mark" [.var "?x"]], .disj [.neg (.rel "won" [.var "?x"])]]]]

/-- All names of the line game are in its table, and only one of them is undefined. -/
theorem names_of_lineGame :
    (∃ g, Graph.ofRules (rulesOf lineGame) = .ok g ∧
      AgreeOnNames (factsOf lineGame) (rulesOf lineGame)
        ⟨⟨[("cell", 1), ("line", 1), ("true", 1), ("won", 1)]⟩, ⟨[("mark", 1)]⟩⟩ g) ∧
      ∃ g, Graph.ofRules (rulesOf lineGame) = .ok g ∧
        [.name "won"] = (g.undefinedNames (factsOf lineGame)).map Subject.name := by
  obtain ⟨hagree, hsubjects⟩ := stages_agree_on_names
  have ht : ArityTables.build (factsOf lineGame) (rulesOf lineGame) =
      .ok ⟨⟨[("cell", 1), ("line", 1), ("true", 1), ("won", 1)]⟩, ⟨[("mark", 1)]⟩⟩ := by
    decide +kernel
  have hv : (validate lineGame []).outcome = .ok [.undefinedSentence "won"] := by decide +kernel
  exact ⟨hagree _ _ _ ht, hsubjects _ _ _ hv⟩

end GameRules
