/-
How an analysis ends. Each of its exits is said once, with the checks that were passed before it,
what the last check found, and the events up to there; whatever holds of every analysis is then
read off the exits. Once the tables are built every head has a name, so nothing after them can
stumble over a malformed node.
-/
import GameRules.Program.Validation
import GameRules.Proofs.Arity.Uniform
import GameRules.Proofs.Rule.Recursion

namespace GameRules

/-! ## Runs step by step -/

namespace Run

variable {α β : Type}

theorem ok_bind (a : α) (tr : List Event) (f : α → Run β) :
    (⟨.ok a, tr⟩ : Run α) >>= f = ⟨(f a).outcome, tr ++ (f a).trace⟩ := rfl

theorem pure_bind (a : α) (f : α → Run β) : pure a >>= f = f a := rfl

theorem bind_assoc {γ : Type} (x : Run α) (f : α → Run β) (g : β → Run γ) :
    x >>= f >>= g = x >>= fun a => f a >>= g := by
  simp only [bind_eq]
  unfold bind
  cases x.outcome with
  | error e => rfl
  | ok a =>
    cases hf : (f a).outcome with
    | error e => simp [hf]
    | ok b => simp [hf]

theorem bind_outcome (x : Run α) (f : α → Run β) :
    (x >>= f).outcome = x.outcome >>= fun a => (f a).outcome := by
  rw [bind_eq]
  unfold bind
  cases x.outcome <;> rfl

theorem lift_failure (x : Except Failure α) : (liftM x : Run α) = ⟨x, []⟩ := rfl

theorem lift_malformed (x : Except Malformed α) : (liftM x : Run α) = ⟨x.mapError .malformed, []⟩ := rfl

end Run

/-! ## Stages -/

section Stages

variable (items : List Node) (ks : List Keyword) (p : Program) (t : ArityTables) (g : Graph)

/-- The items form a program whose tables are built and agree with the keywords. -/
structure Tabled : Prop where
  program : Program.ofItems items = .ok p
  forms : Node.emptyFormFault? (p.facts ++ p.rules.map Rule.toNode) = none
  tables : ArityTables.build p.facts p.rules = .ok t
  keywords : Keyword.arityFault? t.sentences t.functions ks = none

/-- Besides, the rules pass one by one, and their graph is stratified. -/
structure Stratified : Prop extends Tabled items ks p t where
  negations : p.rules.findSome? Rule.negationFault? = none
  safety : p.rules.findSome? Rule.safetyFault? = none
  graph : Graph.ofRules p.rules = .ok g
  strata : g.cycleFault? t.sentences.names = none

/-- Besides, the keywords stand in their places, and no recursion lets terms grow. -/
structure Sound : Prop extends Stratified items ks p t g where
  places : (Keyword.headFault? g ks).or (Keyword.bodyFault? g ks) = none
  dependence : (Keyword.turnFault? g t.sentences.names ks).or
    (Keyword.actionFault? g t.sentences.names ks) = none
  growth : Rule.growthFaultIn? (g.ancestors (.ofList t.sentences.names)) p.rules = .ok none

end Stages

/-- The event after the tables are built. -/
def ArityTables.event (t : ArityTables) : Event :=
  .tablesBuilt t.sentences.entries.length t.functions.entries.length

/-- The event after the names that depend on the turn are found. -/
def turnEvent (ks : List Keyword) (t : ArityTables) (g : Graph) : Event :=
  .turnDependent (Keyword.turnDependents g t.sentences.names ks).toList

/-- Where an analysis may end, and with which events. -/
inductive Exit (items : List Node) (ks : List Keyword) : Run (Program × List Warning) → Prop where
  | stray {f : Fault} : Program.ofItems items = .error f → Exit items ks ⟨.error (.fault f), []⟩
  | emptyForm {p : Program} {f : Fault} : Program.ofItems items = .ok p →
    Node.emptyFormFault? (p.facts ++ p.rules.map Rule.toNode) = some f →
    Exit items ks ⟨.error (.fault f), []⟩
  | malformed {p : Program} {m : Malformed} : Program.ofItems items = .ok p →
    Node.emptyFormFault? (p.facts ++ p.rules.map Rule.toNode) = none →
    ArityTables.build p.facts p.rules = .error (.malformed m) →
    Exit items ks ⟨.error (.malformed m), []⟩
  | arity {p : Program} {f : Fault} : Program.ofItems items = .ok p →
    Node.emptyFormFault? (p.facts ++ p.rules.map Rule.toNode) = none →
    ArityTables.build p.facts p.rules = .error (.fault f) →
    Exit items ks ⟨.error (.fault f), []⟩
  | keyword {p : Program} {t : ArityTables} {f : Fault} : Program.ofItems items = .ok p →
    Node.emptyFormFault? (p.facts ++ p.rules.map Rule.toNode) = none →
    ArityTables.build p.facts p.rules = .ok t →
    Keyword.arityFault? t.sentences t.functions ks = some f →
    Exit items ks ⟨.error (.fault f), []⟩
  | negation {p : Program} {t : ArityTables} {f : Fault} : Tabled items ks p t →
    p.rules.findSome? Rule.negationFault? = some f →
    Exit items ks ⟨.error (.fault f), [t.event]⟩
  | unbound {p : Program} {t : ArityTables} {f : Fault} : Tabled items ks p t →
    p.rules.findSome? Rule.negationFault? = none →
    p.rules.findSome? Rule.safetyFault? = some f →
    Exit items ks ⟨.error (.fault f), [t.event]⟩
  | cycle {p : Program} {t : ArityTables} {g : Graph} {f : Fault} : Tabled items ks p t →
    p.rules.findSome? Rule.negationFault? = none →
    p.rules.findSome? Rule.safetyFault? = none →
    Graph.ofRules p.rules = .ok g → g.cycleFault? t.sentences.names = some f →
    Exit items ks ⟨.error (.fault f), [t.event]⟩
  | misplaced {p : Program} {t : ArityTables} {g : Graph} {f : Fault} :
    Stratified items ks p t g →
    (Keyword.headFault? g ks).or (Keyword.bodyFault? g ks) = some f →
    Exit items ks ⟨.error (.fault f), [t.event, .stratified g.size]⟩
  | dependent {p : Program} {t : ArityTables} {g : Graph} {f : Fault} :
    Stratified items ks p t g →
    (Keyword.headFault? g ks).or (Keyword.bodyFault? g ks) = none →
    (Keyword.turnFault? g t.sentences.names ks).or
      (Keyword.actionFault? g t.sentences.names ks) = some f →
    Exit items ks ⟨.error (.fault f), [t.event, .stratified g.size, turnEvent ks t g]⟩
  | growth {p : Program} {t : ArityTables} {g : Graph} {f : Fault} :
    Stratified items ks p t g →
    (Keyword.headFault? g ks).or (Keyword.bodyFault? g ks) = none →
    (Keyword.turnFault? g t.sentences.names ks).or
      (Keyword.actionFault? g t.sentences.names ks) = none →
    Rule.growthFaultIn? (g.ancestors (.ofList t.sentences.names)) p.rules = .ok (some f) →
    Exit items ks ⟨.error (.fault f), [t.event, .stratified g.size, turnEvent ks t g]⟩
  | sound {p : Program} {t : ArityTables} {g : Graph} : Sound items ks p t g →
    Exit items ks ⟨.ok (p, p.bareWarnings ++ t.sharedNames),
      [t.event, .stratified g.size, turnEvent ks t g]⟩

/-! ## Every analysis takes one of the exits -/

/-- Tables are built only of rules whose heads have names. -/
theorem ArityTables.head_named {facts : List Node} {rules : List Rule} {t : ArityTables}
    (h : build facts rules = .ok t) : ∀ r ∈ rules, r.head.name? ≠ none := by
  intro r hr hn
  have hocc : r.head ∈ sentenceOccurrences facts rules :=
    mem_sentenceOccurrences.2 (.inr ⟨r, hr, .inl rfl⟩)
  exact (build_ok h).1 r.head hocc (by simp [Node.reading?, hn])

/-- The analysis of a program looks at its facts and rules only. -/
theorem analyse_eq_examine {items : List Node} {ks : List Keyword} {p : Program}
    (hp : Program.ofItems items = .ok p) :
    analyse items ks = (do
      let t ← examine p.facts p.rules ks
      return (p, p.bareWarnings ++ t.sharedNames)) := by
  unfold analyse
  rw [hp]
  rfl

/-- What is left of an analysis once the tables are built. -/
theorem Tabled.analyse_eq {items : List Node} {ks : List Keyword} {p : Program} {t : ArityTables}
    (h : Tabled items ks p t) :
    analyse items ks = (do
      Run.emit t.event
      Run.reject? (p.rules.findSome? Rule.negationFault?)
      Run.reject? (p.rules.findSome? Rule.safetyFault?)
      let g ← stratifiedGraph p.rules t.sentences.names
      Keyword.checkPlacing g t.sentences.names ks
      Run.reject? (← Rule.growthFaultIn? (g.ancestors (.ofList t.sentences.names)) p.rules)
      return (p, p.bareWarnings ++ t.sharedNames)) := by
  rw [analyse_eq_examine h.program]
  unfold examine
  simp only [Run.bind_assoc, Run.pure_bind]
  simp only [h.forms, h.tables, h.keywords, Run.lift_failure, Run.reject?, Run.ok_bind]
  rfl

/-- What is left of an analysis once the graph is stratified. -/
theorem Stratified.analyse_eq {items : List Node} {ks : List Keyword} {p : Program}
    {t : ArityTables} {g : Graph} (h : Stratified items ks p t g) :
    analyse items ks = (do
      Run.emit t.event
      Run.emit (.stratified g.size)
      Keyword.checkPlacing g t.sentences.names ks
      Run.reject? (← Rule.growthFaultIn? (g.ancestors (.ofList t.sentences.names)) p.rules)
      return (p, p.bareWarnings ++ t.sharedNames)) := by
  rw [h.toTabled.analyse_eq]
  unfold stratifiedGraph Graph.checkStratified
  simp only [h.negations, h.safety, h.graph, h.strata, Run.lift_malformed, Except.mapError,
    Run.reject?, Run.ok_bind]
  rfl

/-- An analysis that goes through all stages. -/
theorem Sound.analyse_eq {items : List Node} {ks : List Keyword} {p : Program} {t : ArityTables}
    {g : Graph} (h : Sound items ks p t g) :
    analyse items ks = ⟨.ok (p, p.bareWarnings ++ t.sharedNames),
      [t.event, .stratified g.size, turnEvent ks t g]⟩ := by
  rw [h.toStratified.analyse_eq]
  unfold Keyword.checkPlacing
  rw [h.places, h.dependence, h.growth]
  rfl

section Exits

variable {items : List Node} {ks : List Keyword} {p : Program} {t : ArityTables} {g : Graph}

theorem Stratified.exit (h : Stratified items ks p t g) : Exit items ks (analyse items ks) := by
  have hnamed := ArityTables.head_named h.tables
  rw [h.analyse_eq]
  unfold Keyword.checkPlacing
  rcases hp : (Keyword.headFault? g ks).or (Keyword.bodyFault? g ks) with _ | f
  · rcases hd : (Keyword.turnFault? g t.sentences.names ks).or
      (Keyword.actionFault? g t.sentences.names ks) with _ | f
    · -- the heads have names, so the last check cannot stumble
      obtain ⟨f?, hf⟩ := Rule.growthFaultIn?_isOk (g.ancestors (.ofList t.sentences.names)) hnamed
      rw [hf]
      cases f? with
      | none => exact .sound ⟨h, hp, hd, hf⟩
      | some f => exact .growth h hp hd hf
    · exact .dependent h hp hd
  · exact .misplaced h hp

theorem Tabled.exit (h : Tabled items ks p t) : Exit items ks (analyse items ks) := by
  rcases hn : p.rules.findSome? Rule.negationFault? with _ | f
  · rcases hs : p.rules.findSome? Rule.safetyFault? with _ | f
    · obtain ⟨g, hg⟩ := Graph.ofRules_isOk (ArityTables.head_named h.tables)
      rcases hc : g.cycleFault? t.sentences.names with _ | f
      · exact Stratified.exit ⟨h, hn, hs, hg, hc⟩
      · rw [h.analyse_eq, hn, hs]
        unfold stratifiedGraph Graph.checkStratified
        rw [hg]
        simp only [Run.lift_malformed, Except.mapError, Run.ok_bind, hc]
        exact .cycle h hn hs hg hc
    · rw [h.analyse_eq, hn, hs]
      exact .unbound h hn hs
  · rw [h.analyse_eq, hn]
    exact .negation h hn

theorem analyse_exit (items : List Node) (ks : List Keyword) : Exit items ks (analyse items ks) := by
  rcases hp : Program.ofItems items with f | p
  · unfold analyse
    rw [hp]
    exact .stray hp
  · rcases hf : Node.emptyFormFault? (p.facts ++ p.rules.map Rule.toNode) with _ | f
    · rcases ht : ArityTables.build p.facts p.rules with (f | m) | t
      · rw [analyse_eq_examine hp]
        unfold examine
        rw [hf, ht]
        exact .arity hp hf ht
      · rw [analyse_eq_examine hp]
        unfold examine
        rw [hf, ht]
        exact .malformed hp hf ht
      · rcases hk : Keyword.arityFault? t.sentences t.functions ks with _ | f
        · exact Tabled.exit ⟨hp, hf, ht, hk⟩
        · rw [analyse_eq_examine hp]
          unfold examine
          simp only [hf, ht, hk, Run.lift_failure, Run.reject?, Run.ok_bind]
          exact .keyword hp hf ht hk
    · rw [analyse_eq_examine hp]
      unfold examine
      rw [hf]
      exact .emptyForm hp hf

end Exits

/-! ## From the analysis to the validation -/

/-- The program of some items: every item has its place in it. -/
theorem Program.ofItems_ok {items : List Node} {p : Program} (h : ofItems items = .ok p) :
    (∀ n ∈ items, n.isItem = true) ∧ p.facts = items.filter Node.isRelation ∧
      p.rules = items.filterMap Node.rule? ∧ p.propositions = items.filterMap Node.proposition? := by
  unfold ofItems at h
  split at h
  · cases h
  · rename_i hf
    cases h
    rw [List.find?_eq_none] at hf
    exact ⟨fun n hn => by simpa using hf n hn, rfl, rfl, rfl⟩

theorem mapM_getName {α : Type} {f : α → Node} {xs : List α} (h : ∀ x ∈ xs, (f x).name? ≠ none) :
    ∃ names, xs.mapM (fun x => (f x).getName) = .ok names := by
  induction xs with
  | nil => exact ⟨[], rfl⟩
  | cons x xs ih =>
    obtain ⟨name, hn⟩ := Option.ne_none_iff_exists'.1 (h x (by simp))
    obtain ⟨names, hs⟩ := ih fun x hx => h x (by simp [hx])
    refine ⟨name :: names, ?_⟩
    rw [List.mapM_cons, hs]
    unfold Node.getName
    rw [hn]
    rfl

/-- Once the tables are built, all that is asked for undefined names can be answered. -/
theorem undefinedWarnings_isOk {items : List Node} {p : Program} {t : ArityTables}
    (hp : Program.ofItems items = .ok p) (ht : ArityTables.build p.facts p.rules = .ok t) :
    ∃ ws, undefinedWarnings p.facts p.rules = .ok ws := by
  have hfacts : ∀ n ∈ p.facts, n.name? ≠ none := by
    intro n hn
    rw [(Program.ofItems_ok hp).2.1, List.mem_filter] at hn
    cases n with
    | rel name args => simp [Node.name?]
    | _ => cases hn.2
  obtain ⟨factNames, hf⟩ := mapM_getName hfacts
  obtain ⟨headNames, hh⟩ := mapM_getName (ArityTables.head_named ht)
  unfold undefinedWarnings
  rw [hf, hh]
  exact ⟨_, rfl⟩

section Validate

variable {items : List Node} {ks : List Keyword}

theorem validate_outcome_of_error {e : Failure} (h : (analyse items ks).outcome = .error e) :
    (validate items ks).outcome = .error e := by
  unfold validate
  rw [Run.bind_outcome_eq_error, Run.noteRejection_outcome]
  exact .inl h

/-- An accepted description keeps the warnings of its analysis and adds those for undefined names. -/
theorem Sound.validate_eq {p : Program} {t : ArityTables} {g : Graph} {late : List Warning}
    (h : Sound items ks p t g) (hl : undefinedWarnings p.facts p.rules = .ok late) :
    validate items ks = ⟨.ok (p.bareWarnings ++ t.sharedNames ++ late),
      [t.event, .stratified g.size, turnEvent ks t g, .accepted p.facts.length p.rules.length
        (p.bareWarnings ++ t.sharedNames ++ late).length]⟩ := by
  unfold validate
  rw [h.analyse_eq]
  simp only [Run.noteRejection, Run.ok_bind, hl, Run.lift_malformed, Except.mapError]
  rfl

/-- A description is accepted exactly if its analysis goes through all stages. -/
theorem validate_isOk_iff :
    (∃ ws, (validate items ks).outcome = .ok ws) ↔ ∃ p t g, Sound items ks p t g := by
  constructor
  · rintro ⟨ws, h⟩
    unfold validate at h
    obtain ⟨⟨p, early⟩, ha, -⟩ := Run.bind_outcome_eq_ok.1 h
    rw [Run.noteRejection_outcome] at ha
    have he := analyse_exit items ks
    generalize analyse items ks = run at he ha
    cases he with
    | sound hs => exact ⟨_, _, _, hs⟩
    | _ => cases ha
  · rintro ⟨p, t, g, hs⟩
    obtain ⟨late, hl⟩ := undefinedWarnings_isOk hs.program hs.tables
    rw [hs.validate_eq hl]
    exact ⟨_, rfl⟩

end Validate

end GameRules
