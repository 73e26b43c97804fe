/-
The warnings of an accepted description, said of its items alone: one for each bare proposition,
then one for each name that is both a sentence's and a function's, in the order of their first
mention as sentences, then one for each name that a body uses and nothing defines, in increasing
order. Bare propositions earn their own warnings and have no other effect: the checks see only the
facts and the rules.
-/
import GameRules.Proofs.Arity.Mentions
import GameRules.Proofs.Program.Acceptance

namespace GameRules

/-! ## Names that earn a warning -/

section Names

variable (facts : List Node) (rules : List Rule) (name : String)

/-- Some sentence goes by a name, and so does some function in the arguments of a sentence. -/
def IsShared : Prop :=
  (∃ s, SentenceOf facts rules s ∧ s.name? = some name) ∧ ∃ f, FunctionOf facts rules f ∧ f.name = name

/-- A body uses a name that no fact and no head has and that the game does not supply. -/
def IsUndefined : Prop :=
  (∃ r ∈ rules, ∃ s negated, r.Uses s negated ∧ s.name? = some name) ∧
    (∀ s ∈ facts, s.name? ≠ some name) ∧ (∀ r ∈ rules, r.head.name? ≠ some name) ∧
    name ≠ "true" ∧ name ≠ "does"

end Names

/-- Two lists hold exactly the names of some items that earn a warning, each once: the shared ones
in the order of the places where a sentence goes by them first, the undefined ones in increasing
order. -/
structure Earned (items : List Node) (shared undefined : List String) : Prop where
  mem_shared : ∀ name, name ∈ shared ↔ IsShared (factsOf items) (rulesOf items) name
  order_shared : shared.Pairwise (MentionedBefore (factsOf items) (rulesOf items) .sentence)
  mem_undefined : ∀ name, name ∈ undefined ↔ IsUndefined (factsOf items) (rulesOf items) name
  order_undefined : undefined.Pairwise (· < ·)

/-- The warnings for bare propositions, shared names and undefined names, one kind after another. -/
def warningsFor (bare shared undefined : List String) : List Warning :=
  bare.map .bareProposition ++ shared.map .sharedName ++ undefined.map .undefinedSentence

/-! ## Shared names -/

theorem sharedNames_eq {facts : List Node} {rules : List Rule} {t : ArityTables}
    (h : ArityTables.build facts rules = .ok t) :
    ∃ shared : List String, t.sharedNames = shared.map .sharedName ∧
      (∀ name, name ∈ shared ↔ IsShared facts rules name) ∧
      shared.Pairwise (MentionedBefore facts rules .sentence) := by
  refine ⟨t.sentences.names.filter (t.functions.names.contains ·), rfl, fun name => ?_, ?_⟩
  · have ht := (ArityTables.build_ok h).2
    rw [List.mem_filter, List.contains_iff_mem, Keyword.mem_names_iff_occurs h,
      ht.functions.mem_names]
    simp only [mem_nestedReadings]
    refine and_congr Iff.rfl ⟨?_, ?_⟩
    · rintro ⟨k, f, hf, hn, -⟩
      exact ⟨f, hf, hn⟩
    · rintro ⟨f, hf, hn⟩
      exact ⟨f.args.length, f, hf, hn, rfl⟩
  · exact ((ArityTables.build_records h).covers .sentence).order.filter _

/-! ## Undefined names -/

theorem Node.getName_eq_ok {n : Node} {name : String} :
    n.getName = .ok name ↔ n.name? = some name := by
  unfold getName
  cases n.name? <;> simp

/-- The names of some nodes are those that the nodes have. -/
theorem mem_mapM_getName {α : Type} {f : α → Node} {xs : List α} {names : List String}
    (h : xs.mapM (fun x => (f x).getName) = .ok names) (name : String) :
    name ∈ names ↔ ∃ x ∈ xs, (f x).name? = some name := by
  induction xs generalizing names with
  | nil =>
    cases h
    simp
  | cons x xs ih =>
    rw [List.mapM_cons] at h
    cases hx : (f x).getName with
    | error m =>
      rw [hx] at h
      cases h
    | ok first =>
      cases hs : xs.mapM (fun x => (f x).getName) with
      | error m =>
        rw [hx, hs] at h
        cases h
      | ok rest =>
        rw [hx, hs] at h
        cases h
        rw [List.mem_cons, ih hs, List.exists_mem_cons_iff, Node.getName_eq_ok.1 hx,
          Option.some.injEq, eq_comm]

theorem mem_usedNames {rules : List Rule} {name : String} :
    name ∈ usedNames rules ↔ ∃ r ∈ rules, ∃ s negated, r.Uses s negated ∧ s.name? = some name := by
  unfold usedNames
  rw [NameSet.mem_ofList, List.mem_filterMap]
  simp only [List.mem_flatMap, Rule.mem_bodySentences]
  constructor
  · rintro ⟨s, ⟨r, hr, negated, hu⟩, hn⟩
    exact ⟨r, hr, s, negated, hu, hn⟩
  · rintro ⟨r, hr, s, negated, hu, hn⟩
    exact ⟨s, ⟨r, hr, negated, hu⟩, hn⟩

theorem undefinedWarnings_eq {facts : List Node} {rules : List Rule} {late : List Warning}
    (h : undefinedWarnings facts rules = .ok late) :
    ∃ undefined : List String, late = undefined.map .undefinedSentence ∧
      (∀ name, name ∈ undefined ↔ IsUndefined facts rules name) ∧
      undefined.Pairwise (· < ·) := by
  unfold undefinedWarnings at h
  cases hf : facts.mapM Node.getName with
  | error m =>
    rw [hf] at h
    cases h
  | ok factNames =>
    cases hh : rules.mapM (fun r => r.head.getName) with
    | error m =>
      rw [hf, hh] at h
      cases h
    | ok headNames =>
      rw [hf, hh] at h
      cases h
      refine ⟨_, rfl, fun name => ?_, (usedNames rules).increasing.filter _⟩
      have hfact := mem_mapM_getName (f := id) hf name
      have hhead := mem_mapM_getName hh name
      rw [List.mem_filter, ← NameSet.mem_def, mem_usedNames, Bool.not_eq_true',
        List.contains_eq_mem, decide_eq_false_iff_not, List.mem_append, List.mem_append, hfact, hhead]
      unfold IsUndefined suppliedNames
      refine and_congr Iff.rfl ?_
      simp only [List.mem_cons, List.not_mem_nil, or_false, not_or, not_exists, not_and, id_eq,
        ne_eq]
      tauto

/-! ## The list of warnings -/

/-- Every accepted description returns the warnings that its items have earned. -/
theorem exists_earned {items : List Node} {ks : List Keyword} {ws : List Warning}
    (h : (validate items ks).outcome = .ok ws) :
    ∃ shared undefined, Earned items shared undefined ∧
      ws = warningsFor (items.filterMap Node.proposition?) shared undefined := by
  obtain ⟨p, t, g, hs⟩ := validate_isOk_iff.1 ⟨ws, h⟩
  obtain ⟨late, hl⟩ := undefinedWarnings_isOk hs.program hs.tables
  rw [hs.validate_eq hl] at h
  cases h
  obtain ⟨shared, hsh, hms, hos⟩ := sharedNames_eq hs.tables
  obtain ⟨undefined, rfl, hmu, hou⟩ := undefinedWarnings_eq hl
  rw [facts_ofItems hs.program, rules_ofItems hs.program] at hms hos hmu
  refine ⟨shared, undefined, ⟨hms, hos, hmu, hou⟩, ?_⟩
  rw [hsh, Program.bareWarnings, (Program.ofItems_ok hs.program).2.2.2]
  rfl

/-! ## Bare propositions -/

/-- The items without the bare propositions among them. -/
def withoutPropositions (items : List Node) : List Node := items.filter (·.proposition?.isNone)

theorem ofItems_withoutPropositions (items : List Node) :
    Program.ofItems (withoutPropositions items) =
      (Program.ofItems items).map fun p => { p with propositions := [] } := by
  -- stray items, facts and rules are no propositions, so each search and each filter finds the same
  have hstray : (withoutPropositions items).find? (!·.isItem) = items.find? (!·.isItem) := by
    unfold withoutPropositions
    rw [List.find?_filter]
    congr
    funext n
    cases n <;> rfl
  have hfacts : (withoutPropositions items).filter Node.isRelation = items.filter Node.isRelation := by
    unfold withoutPropositions
    rw [List.filter_filter]
    congr
    funext n
    cases n <;> rfl
  have hrules : (withoutPropositions items).filterMap Node.rule? = items.filterMap Node.rule? := by
    unfold withoutPropositions
    rw [List.filterMap_filter]
    congr
    funext n
    cases n <;> rfl
  have hprops : (withoutPropositions items).filterMap Node.proposition? = [] := by
    rw [List.filterMap_eq_nil_iff]
    intro n hn
    simpa using (List.mem_filter.1 hn).2
  unfold Program.ofItems
  rw [hstray, hfacts, hrules, hprops]
  cases items.find? (!·.isItem) <;> rfl

theorem validate_outcome_eq {items : List Node} {ks : List Keyword} {p : Program}
    (hp : Program.ofItems items = .ok p) :
    (validate items ks).outcome = (do
      let t ← (examine p.facts p.rules ks).outcome
      let late ← (undefinedWarnings p.facts p.rules).mapError .malformed
      return p.bareWarnings ++ t.sharedNames ++ late) := by
  unfold validate
  rw [Run.bind_outcome, Run.noteRejection_outcome, analyse_eq_examine hp, Run.bind_outcome]
  cases (examine p.facts p.rules ks).outcome with
  | error e => rfl
  | ok t =>
    refine (Run.bind_outcome (liftM (undefinedWarnings p.facts p.rules)) _).trans ?_
    cases undefinedWarnings p.facts p.rules <;> rfl

theorem filter_not_bare (bare shared undefined : List String) :
    (warningsFor bare shared undefined).filter (·.code ≠ "W100") =
      warningsFor [] shared undefined := by
  simp [warningsFor, List.filter_append, List.filter_map, Function.comp_def, Warning.code]

theorem filter_warningsFor (bare shared undefined : List String) :
    (warningsFor bare shared undefined).filter (·.code = "W100") = bare.map .bareProposition ∧
      (warningsFor bare shared undefined).filter (·.code = "W130") = shared.map .sharedName ∧
      (warningsFor bare shared undefined).filter (·.code = "W190") =
        undefined.map .undefinedSentence := by
  simp [warningsFor, List.filter_append, List.filter_map, Function.comp_def, Warning.code]

/-- The names can be read off the warnings, kind by kind. -/
theorem warningsFor_inj {bare bare' shared shared' undefined undefined' : List String}
    (h : warningsFor bare shared undefined = warningsFor bare' shared' undefined') :
    bare = bare' ∧ shared = shared' ∧ undefined = undefined' := by
  have hnames := fun code => congrArg (fun ws => (ws.filter (·.code = code)).map Warning.name) h
  have hbare := hnames "W100"
  have hshared := hnames "W130"
  have hundefined := hnames "W190"
  simp only [(filter_warningsFor _ _ _).1, List.map_map] at hbare
  simp only [(filter_warningsFor _ _ _).2.1, List.map_map] at hshared
  simp only [(filter_warningsFor _ _ _).2.2, List.map_map] at hundefined
  simpa [Function.comp_def, Warning.name] using And.intro hbare (And.intro hshared hundefined)

/-- Without its bare propositions a description has the same outcome, less their warnings. -/
theorem validate_withoutPropositions (items : List Node) (ks : List Keyword) :
    (validate (withoutPropositions items) ks).outcome =
      (validate items ks).outcome.map (·.filter (·.code ≠ "W100")) := by
  have hof := ofItems_withoutPropositions items
  cases hp : Program.ofItems items with
  | error f =>
    rw [hp] at hof
    have hstray : ∀ its, Program.ofItems its = .error f →
        (validate its ks).outcome = .error (.fault f) := by
      intro its h
      refine validate_outcome_of_error ?_
      unfold analyse
      rw [h]
      rfl
    rw [hstray _ hof, hstray _ hp]
    rfl
  | ok p =>
    rw [hp] at hof
    rw [validate_outcome_eq hof, validate_outcome_eq hp]
    cases (examine p.facts p.rules ks).outcome with
    | error e => rfl
    | ok t =>
      cases hl : undefinedWarnings p.facts p.rules with
      | error m => rfl
      | ok late =>
        obtain ⟨undefined, rfl, -⟩ := undefinedWarnings_eq hl
        exact congrArg Except.ok (filter_not_bare p.propositions _ undefined).symm

/-- The warnings of an accepted description are those that its items have earned: for the bare
propositions in item order, for the shared names in the order of their first mention as sentences,
and for the undefined names in increasing order. Without the bare propositions any description, accepted or not, has the same
outcome but for their warnings. -/
theorem validate_warnings_exact (items : List Node) (ks : List Keyword) :
    (∀ ws, (validate items ks).outcome = .ok ws → ∃ shared undefined,
      Earned items shared undefined ∧
        ws = warningsFor (items.filterMap Node.proposition?) shared undefined) ∧
      (validate (withoutPropositions items) ks).outcome =
        (validate items ks).outcome.map (·.filter (·.code ≠ "W100")) :=
  ⟨fun _ h => exists_earned h, validate_withoutPropositions items ks⟩

/-- A game with bare propositions, names of two kinds and undefined names. -/
def sketchyGame : List Node :=
  [.prop "draw", .rel "tile" [.fn "open" [.const "x"]], .prop "start",
    .rule (.prop "open") [.disj [.rel "mark" [.var "?y"], .neg (.prop "draw")],
      .rel "tile" [.fn "tile" [.fn "mark" [.var "?z"]]]]]

/-- A bare proposition does not define its name. The name of a fact is mentioned before that of a head,
and the name of a head before those in the body. -/
theorem warnings_of_sketchyGame :
    Earned sketchyGame ["tile", "open", "mark"] ["draw", "mark"] ∧
      (validate sketchyGame []).outcome =
        .ok (warningsFor ["draw", "start"] ["tile", "open", "mark"] ["draw", "mark"]) ∧
      (validate (withoutPropositions sketchyGame) []).outcome =
        .ok (warningsFor [] ["tile", "open", "mark"] ["draw", "mark"]) := by
  obtain ⟨hexact, hwithout⟩ := validate_warnings_exact sketchyGame []
  have hv : (validate sketchyGame []).outcome =
      .ok (warningsFor ["draw", "start"] ["tile", "open", "mark"] ["draw", "mark"]) := by
    decide +kernel
  obtain ⟨shared, undefined, he, hws⟩ := hexact _ hv
  obtain ⟨-, rfl, rfl⟩ := warningsFor_inj hws
  refine ⟨he, hv, ?_⟩
  rw [hwithout, hv]
  rfl

end GameRules
