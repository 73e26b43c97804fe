/-
Keywords as names of functions. In an accepted description no keyword names a function in an argument
of a sentence, at whatever depth and below whatever negations and disjunctions. The sides of an
inequality are not looked at: whatever they are changed to, as long as their variables stay and no
empty form comes or goes, each check sees the same, and the verdict with its warnings does not change.
So a keyword may name a function there.
-/
import GameRules.Proofs.Program.Keywords

namespace GameRules

/-! ## Where functions stand -/

namespace Node

/-- A function stands in a literal, in an argument of a relation or on a side of an inequality, below
negations and disjunctions only. The flag tells whether it is on a side of an inequality. -/
inductive HoldsFunction (f : Application) : Bool → Node → Prop where
  | arg {name : String} {args : List Node} {a : Node} :
    a ∈ args → TermIn f.toNode a → HoldsFunction f false (rel name args)
  | side {left right t : Node} :
    t ∈ [left, right] → TermIn f.toNode t → HoldsFunction f true (distinct left right)
  | neg {onSide : Bool} {body : Node} : HoldsFunction f onSide body → HoldsFunction f onSide (neg body)
  | disj {onSide : Bool} {d : Node} {ds : List Node} :
    d ∈ ds → HoldsFunction f onSide d → HoldsFunction f onSide (disj ds)

/-- A function stands in a fact, or in the head or the body of a rule. -/
def ItemHolds (f : Application) (onSide : Bool) : Node → Prop
  | rel name args => HoldsFunction f onSide (rel name args)
  | rule head body => HoldsFunction f onSide head ∨ ∃ l ∈ body, HoldsFunction f onSide l
  | _ => False

/-- A function that is on no side of an inequality stands in an argument of a sentence. -/
theorem HoldsFunction.exists_sentence {f : Application} {onSide : Bool} {l : Node}
    (h : HoldsFunction f onSide l) (hside : onSide = false) :
    ∃ s negated, Occurs s negated l ∧ ∃ a ∈ s.sentenceArgs, TermIn f.toNode a := by
  induction h with
  | arg ha hf => exact ⟨_, false, .self rfl, _, ha, hf⟩
  | side => cases hside
  | neg _ ih =>
    obtain ⟨s, negated, hs, hf⟩ := ih hside
    exact ⟨s, true, .neg hs, hf⟩
  | disj hd _ ih =>
    obtain ⟨s, negated, hs, hf⟩ := ih hside
    exact ⟨s, negated, .disj hd hs, hf⟩

end Node

theorem Sound.functionOf {items : List Node} {ks : List Keyword} {p : Program} {t : ArityTables}
    {g : Graph} (h : Sound items ks p t g) {n : Node} (hn : n ∈ items) {f : Application}
    (hf : n.ItemHolds f false) : FunctionOf (factsOf items) (rulesOf items) f := by
  cases n with
  | rel name args =>
    cases hf with
    | arg ha hf => exact ⟨_, .inl (List.mem_filter.2 ⟨hn, rfl⟩), _, ha, hf⟩
  | rule head body =>
    have hr : ⟨head, body⟩ ∈ rulesOf items := List.mem_filterMap.2 ⟨_, hn, rfl⟩
    rcases hf with hf | ⟨l, hl, hf⟩
    · -- the head has been read, so it holds functions only as a relation
      obtain ⟨name, rfl⟩ | ⟨name, args, rfl⟩ | ⟨name, args, rfl⟩ :=
        HeadsNamed.of_build h.program h.tables head body hn
      · cases hf
      · cases hf with
        | arg ha hf => exact ⟨_, .inr ⟨_, hr, .inl rfl⟩, _, ha, hf⟩
      · cases hf
    · obtain ⟨s, negated, hs, hf⟩ := hf.exists_sentence rfl
      exact ⟨s, .inr ⟨_, hr, .inr ⟨negated, l, hl, hs⟩⟩, hf⟩
  | _ => cases hf

/-! ## Other sides -/

namespace Node

mutual

/-- A literal with the sides of its inequalities changed, also below negations and disjunctions. -/
def mapSides (τ : Node → Node) : Node → Node
  | neg body => neg (mapSides τ body)
  | disj ds => disj (mapSidesIn τ ds)
  | distinct left right => distinct (τ left) (τ right)
  | l => l

def mapSidesIn (τ : Node → Node) : List Node → List Node
  | [] => []
  | l :: ls => mapSides τ l :: mapSidesIn τ ls

end

theorem mapSidesIn_eq_map (τ : Node → Node) (ls : List Node) :
    mapSidesIn τ ls = ls.map (mapSides τ) := by
  induction ls with
  | nil => rfl
  | cons l ls ih => simp [mapSidesIn, ih]

/-- A rule with the sides of its inequalities changed; other items stay. -/
def mapItemSides (τ : Node → Node) : Node → Node
  | rule head body => rule head (mapSidesIn τ body)
  | n => n

/-- A change of terms that keeps their variables, and that neither makes nor removes empty forms. -/
structure Conserves (τ : Node → Node) : Prop where
  vars : ∀ t, (τ t).vars = t.vars
  forms : ∀ t, (∀ m, TermIn m (τ t) → ¬ IsEmptyForm m) ↔ ∀ m, TermIn m t → ¬ IsEmptyForm m

/-- A function put around a term changes nothing of that. -/
theorem conserves_fn (name : String) : Conserves fun t => fn name [t] where
  vars t := by simp [vars, varsIn]
  forms t := by
    simp only [termIn_fn, List.mem_singleton, exists_eq_left, or_imp, forall_and, forall_eq]
    refine and_iff_right ?_
    rintro ⟨⟩

/-! ## What the checks see of a literal -/

variable {τ : Node → Node}

theorem sentences_mapSides (l : Node) : (mapSides τ l).sentences = l.sentences := by
  induction l with
  | neg body ih => simpa [mapSides, sentences] using ih
  | disj ds ih =>
    simp only [mapSides, sentences, sentencesIn_eq_flatMap, mapSidesIn_eq_map, List.flatMap_map]
    exact List.flatMap_congr ih
  | _ => rfl

theorem references_mapSides (negated : Bool) (l : Node) :
    references negated (mapSides τ l) = references negated l := by
  induction l generalizing negated with
  | neg body ih => simpa [mapSides, references] using ih true
  | disj ds ih =>
    simp only [mapSides, references, referencesIn_eq_flatMap, mapSidesIn_eq_map, List.flatMap_map]
    exact List.flatMap_congr fun d hd => ih d hd negated
  | _ => rfl

theorem isSentence_mapSides (l : Node) : (mapSides τ l).isSentence = l.isSentence := by
  cases l <;> rfl

theorem negationFault?_mapSides (l : Node) :
    (mapSides τ l).negationFault? = none ↔ l.negationFault? = none := by
  induction l with
  | neg body => simp [mapSides, negationFault?, isSentence_mapSides]
  | disj ds ih =>
    simp only [mapSides, negationFault?, negationFaultIn?_eq_findSome?, mapSidesIn_eq_map,
      List.findSome?_eq_none_iff, List.mem_map, forall_exists_index, and_imp, forall_apply_eq_imp_iff₂]
    exact forall₂_congr ih
  | _ => rfl

theorem bound_mapSides (l : Node) : (mapSides τ l).bound = l.bound := by
  induction l with
  | disj ds ih =>
    simp only [mapSides, bound, boundEach_eq_map, mapSidesIn_eq_map, List.map_map]
    exact congrArg common (List.map_congr_left ih)
  | _ => rfl

theorem exposed_mapSides (hτ : Conserves τ) (l : Node) : (mapSides τ l).exposed = l.exposed := by
  induction l with
  | neg body => cases body <;> rfl
  | disj ds ih =>
    simp only [mapSides, exposed, exposedIn_eq_flatMap, mapSidesIn_eq_map, List.flatMap_map]
    exact List.flatMap_congr ih
  | distinct left right => simp [mapSides, exposed, varsIn, hτ.vars]
  | _ => rfl

/-- No empty form is met on the walk from a node exactly if the node is none, and none is met in its
parts. -/
theorem no_emptyForm_iff {n : Node} :
    (∀ m, OnWalk m n → ¬ IsEmptyForm m) ↔ ¬ IsEmptyForm n ∧
      (∀ t ∈ n.termParts, ∀ m, TermIn m t → ¬ IsEmptyForm m) ∧
      ∀ p ∈ n.parts, ∀ m, OnWalk m p → ¬ IsEmptyForm m := by
  constructor
  · intro h
    exact ⟨h n .self, fun t ht m hm => h m (.term ht hm), fun p hp m hm => h m (.part hp hm)⟩
  · rintro ⟨hself, hterms, hparts⟩ m hm
    cases hm with
    | self => exact hself
    | term ht hm => exact hterms _ ht m hm
    | part hp hm => exact hparts _ hp m hm

theorem no_emptyForm_mapSides (hτ : Conserves τ) (l : Node) :
    (∀ m, OnWalk m (mapSides τ l) → ¬ IsEmptyForm m) ↔ ∀ m, OnWalk m l → ¬ IsEmptyForm m := by
  have hneg : ∀ b, ¬ IsEmptyForm (neg b) := by rintro b ⟨⟩
  have hdisj : ∀ ds, ¬ IsEmptyForm (disj ds) := by rintro ds ⟨⟩
  have hdistinct : ∀ a b, ¬ IsEmptyForm (distinct a b) := by rintro a b ⟨⟩
  induction l with
  | neg body ih =>
    rw [mapSides, no_emptyForm_iff, @no_emptyForm_iff (neg body)]
    simp only [hneg, termParts, parts, List.forall_mem_singleton, ih]
  | disj ds ih =>
    rw [mapSides, no_emptyForm_iff, @no_emptyForm_iff (disj ds)]
    simp only [hdisj, termParts, parts, mapSidesIn_eq_map, List.forall_mem_map]
    exact and_congr_right' (and_congr_right' (forall₂_congr ih))
  | distinct left right =>
    rw [mapSides, no_emptyForm_iff, @no_emptyForm_iff (distinct left right)]
    simp only [hdistinct, termParts, parts, List.forall_mem_cons, hτ.forms]
  | _ => rfl

end Node

/-! ## What the checks see of a rule -/

namespace Rule

variable {τ : Node → Node}

def mapSides (τ : Node → Node) (r : Rule) : Rule := ⟨r.head, Node.mapSidesIn τ r.body⟩

theorem bodySentences_mapSides (r : Rule) : (r.mapSides τ).bodySentences = r.bodySentences := by
  unfold bodySentences mapSides
  simp only [Node.sentencesIn_eq_flatMap, Node.mapSidesIn_eq_map, List.flatMap_map,
    Node.sentences_mapSides]

theorem sentences_mapSides (r : Rule) : (r.mapSides τ).sentences = r.sentences := by
  unfold sentences
  rw [bodySentences_mapSides]
  rfl

theorem no_emptyForm_mapSides (hτ : Node.Conserves τ) (r : Rule) :
    (∀ m, Node.OnWalk m (r.mapSides τ).toNode → ¬ Node.IsEmptyForm m) ↔
      ∀ m, Node.OnWalk m r.toNode → ¬ Node.IsEmptyForm m := by
  have hempty : Node.IsEmptyForm (r.mapSides τ).toNode ↔ Node.IsEmptyForm r.toNode := by
    obtain ⟨head, body⟩ := r
    cases body with
    | nil => rfl
    | cons l ls => exact ⟨nofun, nofun⟩
  rw [Node.no_emptyForm_iff, @Node.no_emptyForm_iff r.toNode, hempty]
  simp only [toNode, mapSides, Node.termParts, Node.parts, List.forall_mem_cons,
    Node.mapSidesIn_eq_map, List.forall_mem_map, Node.no_emptyForm_mapSides hτ]

theorem negationFault?_mapSides (r : Rule) :
    (r.mapSides τ).negationFault? = none ↔ r.negationFault? = none := by
  unfold negationFault? mapSides
  simp only [Node.negationFaultIn?_eq_findSome?, List.findSome?_eq_none_iff, Node.mapSidesIn_eq_map,
    List.forall_mem_map, Node.negationFault?_mapSides]

theorem safetyFault?_mapSides (hτ : Node.Conserves τ) (r : Rule) :
    (r.mapSides τ).safetyFault? = none ↔ r.safetyFault? = none := by
  have hexposed : (r.mapSides τ).exposed = r.exposed := by
    unfold exposed mapSides
    simp only [Node.exposedIn_eq_flatMap, Node.mapSidesIn_eq_map, List.flatMap_map,
      Node.exposed_mapSides hτ]
  have hbound : (r.mapSides τ).bound = r.bound := by
    unfold bound mapSides
    simp only [Node.mapSidesIn_eq_map, List.flatMap_map, Node.bound_mapSides]
  unfold safetyFault?
  rw [hexposed, hbound, Option.map_eq_none_iff, Option.map_eq_none_iff]

theorem argsWhere_mapSidesIn (test : String → Bool) (ls : List Node) :
    argsWhere test (Node.mapSidesIn τ ls) = argsWhere test ls := by
  unfold argsWhere
  rw [Node.mapSidesIn_eq_map, List.flatMap_map]
  refine List.flatMap_congr fun l _ => ?_
  cases l <;> rfl

theorem grown?_mapSides (test : String → Bool) (r : Rule) :
    grown? test (r.mapSides τ) = grown? test r := by
  have hrecursive : recursiveArgs test (r.mapSides τ).body = recursiveArgs test r.body := by
    unfold recursiveArgs mapSides
    rw [Node.mapSidesIn_eq_map, List.flatMap_map]
    refine List.flatMap_congr fun l _ => ?_
    cases l with
    | disj ds => exact argsWhere_mapSidesIn test ds
    | _ => rfl
  have hpassed : passedTerms test (r.mapSides τ) = passedTerms test r := by
    unfold passedTerms mapSides
    rw [argsWhere_mapSidesIn]
  unfold grown? mayGrow
  rw [hrecursive, hpassed]

theorem growthFaultIn?_mapSides (τ : Node → Node) (ancestors : List (String × NameSet))
    (rules : List Rule) :
    growthFaultIn? ancestors (rules.map (mapSides τ)) = .ok none ↔
      growthFaultIn? ancestors rules = .ok none := by
  unfold growthFaultIn?
  induction rules with
  | nil => rfl
  | cons r rules ih =>
    rw [List.map_cons, List.findSomeM?_cons, List.findSomeM?_cons]
    cases hn : r.head.name? with
    | none =>
      unfold growthFault? Node.getName mapSides
      rw [hn]
      exact ⟨nofun, nofun⟩
    | some head =>
      have hn' : (r.mapSides τ).head.name? = some head := hn
      rw [growthFault?_eq hn, growthFault?_eq hn', grown?_mapSides]
      cases grown? (isCyclic ancestors head) r with
      | none => exact ih
      | some t => exact ⟨nofun, nofun⟩

end Rule

/-! ## What the checks see of a description -/

section Descriptions

variable {τ : Node → Node}

theorem Graph.ofRules_mapSides (τ : Node → Node) (rules : List Rule) :
    Graph.ofRules (rules.map (Rule.mapSides τ)) = Graph.ofRules rules := by
  unfold Graph.ofRules
  rw [List.foldlM_map]
  congr 1
  funext g r
  unfold Graph.addRule Rule.mapSides
  simp only [Node.referencesIn_eq_flatMap, Node.mapSidesIn_eq_map, List.flatMap_map,
    Node.references_mapSides]

theorem ArityTables.build_mapSides (τ : Node → Node) (facts : List Node) (rules : List Rule) :
    ArityTables.build facts (rules.map (Rule.mapSides τ)) = ArityTables.build facts rules := by
  unfold ArityTables.build sentenceOccurrences
  simp only [List.flatMap_map, Rule.sentences_mapSides]

theorem undefinedWarnings_mapSides (τ : Node → Node) (facts : List Node) (rules : List Rule) :
    undefinedWarnings facts (rules.map (Rule.mapSides τ)) = undefinedWarnings facts rules := by
  have hused : usedNames (rules.map (Rule.mapSides τ)) = usedNames rules := by
    unfold usedNames
    simp only [List.flatMap_map, Rule.bodySentences_mapSides]
  unfold undefinedWarnings
  rw [hused, List.mapM_map]
  rfl

def Program.mapSides (τ : Node → Node) (p : Program) : Program :=
  { p with rules := p.rules.map (Rule.mapSides τ) }

/-- Items are sorted as before: a stray item is no rule, so it stays as it is. -/
theorem Program.ofItems_mapSides (items : List Node) :
    ofItems (items.map (Node.mapItemSides τ)) = (ofItems items).map (mapSides τ) := by
  have hitem : ∀ n, (Node.mapItemSides τ n).isItem = n.isItem := by
    intro n
    cases n <;> rfl
  have hfacts : (items.map (Node.mapItemSides τ)).filter Node.isRelation =
      items.filter Node.isRelation := by
    induction items with
    | nil => rfl
    | cons n items ih => cases n <;> simp [Node.mapItemSides, Node.isRelation, List.filter_cons, ih]
  have hrules : (items.map (Node.mapItemSides τ)).filterMap Node.rule? =
      (items.filterMap Node.rule?).map (Rule.mapSides τ) := by
    rw [List.filterMap_map, List.map_filterMap]
    refine List.filterMap_congr fun n _ => ?_
    cases n <;> rfl
  have hprops : (items.map (Node.mapItemSides τ)).filterMap Node.proposition? =
      items.filterMap Node.proposition? := by
    rw [List.filterMap_map]
    refine List.filterMap_congr fun n _ => ?_
    cases n <;> rfl
  unfold ofItems
  rw [hfacts, hrules, hprops, List.find?_map]
  simp only [Function.comp_def, hitem]
  cases h : items.find? (!·.isItem) with
  | none => rfl
  | some n =>
    have hn := List.find?_some h
    cases n with
    | rule head body => cases hn
    | _ => rfl

/-- An analysis goes through all stages with other sides exactly if it does with the old ones. -/
theorem Sound.mapSides_iff (hτ : Node.Conserves τ) {items : List Node} {ks : List Keyword} {p : Program}
    {t : ArityTables} {g : Graph} (hp : Program.ofItems items = .ok p) :
    Sound (items.map (Node.mapItemSides τ)) ks (p.mapSides τ) t g ↔ Sound items ks p t g := by
  have hp' : Program.ofItems (items.map (Node.mapItemSides τ)) = .ok (p.mapSides τ) := by
    rw [Program.ofItems_mapSides, hp]
    rfl
  have hforms : Node.emptyFormFault? (p.facts ++ (p.mapSides τ).rules.map Rule.toNode) = none ↔
      Node.emptyFormFault? (p.facts ++ p.rules.map Rule.toNode) = none := by
    simp only [Node.emptyFormFault?_eq_none_iff, Program.mapSides, List.forall_mem_append,
      List.forall_mem_map, Rule.no_emptyForm_mapSides hτ]
  have hnegations : (p.mapSides τ).rules.findSome? Rule.negationFault? = none ↔
      p.rules.findSome? Rule.negationFault? = none := by
    simp only [Program.mapSides, List.findSome?_eq_none_iff, List.forall_mem_map,
      Rule.negationFault?_mapSides]
  have hsafety : (p.mapSides τ).rules.findSome? Rule.safetyFault? = none ↔
      p.rules.findSome? Rule.safetyFault? = none := by
    simp only [Program.mapSides, List.findSome?_eq_none_iff, List.forall_mem_map,
      Rule.safetyFault?_mapSides hτ]
  have htables := ArityTables.build_mapSides τ p.facts p.rules
  have hgraph := Graph.ofRules_mapSides τ p.rules
  have hgrowth := Rule.growthFaultIn?_mapSides τ (g.ancestors (.ofList t.sentences.names)) p.rules
  constructor
  · intro h
    exact ⟨⟨⟨hp, hforms.1 h.forms, htables.symm.trans h.tables, h.keywords⟩,
      hnegations.1 h.negations, hsafety.1 h.safety, hgraph.symm.trans h.graph, h.strata⟩,
      h.places, h.dependence, hgrowth.1 h.growth⟩
  · intro h
    exact ⟨⟨⟨hp', hforms.2 h.forms, htables.trans h.tables, h.keywords⟩,
      hnegations.2 h.negations, hsafety.2 h.safety, hgraph.trans h.graph, h.strata⟩,
      h.places, h.dependence, hgrowth.2 h.growth⟩

/-- The run of an accepted description does not change with the sides. -/
theorem Sound.validate_mapSides (hτ : Node.Conserves τ) {items : List Node} {ks : List Keyword}
    {p : Program} {t : ArityTables} {g : Graph} (h : Sound items ks p t g) :
    validate (items.map (Node.mapItemSides τ)) ks = validate items ks := by
  obtain ⟨late, hl⟩ := undefinedWarnings_isOk h.program h.tables
  have hl' : undefinedWarnings (p.mapSides τ).facts (p.mapSides τ).rules = .ok late :=
    (undefinedWarnings_mapSides τ p.facts p.rules).trans hl
  rw [h.validate_eq hl, ((Sound.mapSides_iff hτ h.program).2 h).validate_eq hl']
  simp only [Program.mapSides, Program.bareWarnings, List.length_map]

end Descriptions

/-! ## Keywords as functions -/

/-- In an accepted description no keyword names a function in an argument of a sentence. The sides of
inequalities are not looked at: changed to anything with the same variables and no other empty forms,
keywords put around them included, they leave the verdict and its warnings as they are. -/
theorem validate_reserves_keywords_off_sides (items : List Node) (ks : List Keyword)
    (ws : List Warning) :
    ((validate items ks).outcome = .ok ws → ∀ n ∈ items, ∀ f : Application, n.ItemHolds f false →
      ∀ k ∈ ks, f.name ≠ k.name) ∧
    ∀ τ, Node.Conserves τ →
      ((validate (items.map (Node.mapItemSides τ)) ks).outcome = .ok ws ↔
        (validate items ks).outcome = .ok ws) := by
  refine ⟨fun hv n hn f hf k hk => ?_, fun τ hτ => ⟨fun hv => ?_, fun hv => ?_⟩⟩
  · obtain ⟨p, t, g, h⟩ := validate_isOk_iff.1 ⟨ws, hv⟩
    exact h.spelled.functions k hk f (h.functionOf hn hf)
  · obtain ⟨p', t, g, h'⟩ := validate_isOk_iff.1 ⟨ws, hv⟩
    have hp' := h'.program
    rw [Program.ofItems_mapSides] at hp'
    cases hp : Program.ofItems items with
    | error f =>
      rw [hp] at hp'
      cases hp'
    | ok p =>
      rw [hp] at hp'
      cases hp'
      have h := (Sound.mapSides_iff hτ hp).1 h'
      rwa [← h.validate_mapSides hτ]
  · obtain ⟨p, t, g, h⟩ := validate_isOk_iff.1 ⟨ws, hv⟩
    rwa [h.validate_mapSides hτ]

/-- Players at seats; two of them are rivals if they are not the same player and not at one seat. -/
def rivalGame : List Node :=
  [.rel "role" [.const "north"], .rel "sits" [.const "north", .fn "seat" [.const "one"]],
    .rule (.rel "rivals" [.var "?x", .var "?y"])
      [.rel "sits" [.var "?x", .var "?s"], .rel "sits" [.var "?y", .var "?t"],
        .distinct (.var "?x") (.var "?y"),
        .disj [.prop "crowded", .distinct (.fn "seat" [.var "?s"]) (.var "?t")]]]

def roleTable : List Keyword := [⟨"role", 1, true, "argument: the player name", [.factsOnly]⟩]

/-- The seats of the game are no keyword, and the keyword put around all its sides goes unseen. -/
theorem rivalGame_reserves :
    "seat" ≠ "role" ∧
      (validate (rivalGame.map (Node.mapItemSides fun t => .fn "role" [t])) roleTable).outcome =
        .ok [.undefinedSentence "crowded"] := by
  have hv : (validate rivalGame roleTable).outcome = .ok [.undefinedSentence "crowded"] := by
    decide +kernel
  obtain ⟨hreserved, hsides⟩ := validate_reserves_keywords_off_sides rivalGame roleTable _
  refine ⟨?_, (hsides _ (Node.conserves_fn "role")).2 hv⟩
  refine hreserved hv (.rel "sits" [.const "north", .fn "seat" [.const "one"]])
    (by simp [rivalGame]) ⟨"seat", [.const "one"]⟩ ?_ _ List.mem_cons_self
  exact .arg (List.mem_cons_of_mem _ List.mem_cons_self) .self

/-- A keyword may name a function on a side of an inequality. -/
theorem keyword_on_side_accepted :
    ¬ ∀ items ks ws, (validate items ks).outcome = .ok ws → ∀ n ∈ items, ∀ (f : Application) onSide,
      n.ItemHolds f onSide → ∀ k ∈ ks, f.name ≠ k.name := by
  intro h
  have hv : (validate [.rel "role" [.const "x"], .rule (.prop "q") [.rel "role" [.var "?x"],
      .distinct (.fn "role" [.var "?x"]) (.const "a")]] roleTable).outcome = .ok [] := by
    decide +kernel
  refine h _ _ _ hv _ (List.mem_cons_of_mem _ List.mem_cons_self) ⟨"role", [.var "?x"]⟩ true ?_ _
    List.mem_cons_self rfl
  exact .inr ⟨_, List.mem_cons_of_mem _ List.mem_cons_self, .side List.mem_cons_self .self⟩

end GameRules
