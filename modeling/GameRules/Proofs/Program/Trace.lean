/-
How a validation ends, and what it has noted by then. It accepts, it refuses for one fault, or it
stumbles over a head that is no sentence; the sources of its events are fixed in each case, and a
refusal comes after as many of the three events of the analysis as its code tells. Once the tables
are built, no later part can stumble.
-/
import GameRules.Proofs.Keyword.Wording
import GameRules.Proofs.Program.Acceptance

namespace GameRules

/-! ## Events by their sources -/

/-- The level of an event and the part of the analysis that it comes from. -/
def Event.source (e : Event) : Level × Channel := (e.level, e.channel)

/-- The sources of the events of a whole analysis, in order. -/
def analysisSources : List (Level × Channel) :=
  [(.debug, .validation), (.debug, .dependency), (.debug, .keywords)]

/-- The codes of the faults that are found after so many events of the analysis. -/
def codesAfter : Nat → List String
  | 0 => ["E100", "E110", "E111", "E112", "E130", "E131", "E140", "E141", "E142"]
  | 1 => ["E120", "E150", "E160"]
  | 2 => ["E170", "E171", "E172"]
  | 3 => ["E173", "E174", "E180"]
  | _ => []

/-! ## Endings -/

/-- The three ways in which a validation may end. -/
inductive Ending where
  | accepted (ws : List Warning)
  | refused (f : Fault)
  | stumbled (m : Malformed)

/-- A run over some items ends in one of the ways, with the events that belong to it. An acceptance
is noted after all events of the analysis, a refusal after those before its fault, in the words that
the fault has; a stumble comes from reading the arity of a head that is no proposition, relation or
function, and nothing is noted before or after it. -/
def Ends (items : List Node) (run : Run (List Warning)) : Ending → Prop
  | .accepted ws => run.outcome = .ok ws ∧ (∀ w ∈ ws, w.diagnostic.severity = .warning) ∧
      run.trace.map Event.source = analysisSources ++ [(.info, .validation)]
  | .refused f => run.outcome = .error (.fault f) ∧ f.diagnostic.severity = .error ∧
      ∃ n early last text, run.trace = early ++ [last] ∧ f.code ∈ codesAfter n ∧
        early.map Event.source = analysisSources.take n ∧ last.source = (.warning, .validation) ∧
        f.message? = some text ∧ f.diagnostic.message = text ∧
        last.message = "description rejected: " ++ f.code ++ ": " ++ text
  | .stumbled m => run.outcome = .error (.malformed m) ∧ run.trace = [] ∧
      ∃ p, Program.ofItems items = .ok p ∧
        ArityTables.build p.facts p.rules = .error (.malformed m) ∧
        ∃ r ∈ p.rules, m.node = r.head ∧ (∀ name, r.head ≠ .prop name) ∧
          (∀ name args, r.head ≠ .rel name args) ∧ ∀ name args, r.head ≠ .fn name args

/-- The outcome tells the ending. -/
theorem Ends.unique {items : List Node} {run : Run (List Warning)} {e e' : Ending}
    (h : Ends items run e) (h' : Ends items run e') : e = e' := by
  cases e <;> cases e' <;> cases h.1.symm.trans h'.1 <;> rfl

/-! ## Refused and stumbling analyses -/

section Exits

variable {items : List Node} {ks : List Keyword} {run : Run (Program × List Warning)}

/-- The code of a fault tells how many events came before it. -/
theorem Exit.codesAfter_of_fault (he : Exit items ks run) {f : Fault}
    (hf : run.outcome = .error (.fault f)) :
    ∃ n, f.code ∈ codesAfter n ∧ run.trace.map Event.source = analysisSources.take n := by
  cases he with
  | stray hp =>
    cases hf
    exact ⟨0, by simp [(ofItems_error hp).1, codesAfter], rfl⟩
  | emptyForm _ h =>
    cases hf
    obtain ⟨v, -, hv⟩ := List.exists_of_findSome?_eq_some h
    exact ⟨0, (by decide : ["E110", "E111", "E112"] ⊆ codesAfter 0) (Node.emptyForm?_code hv), rfl⟩
  | malformed _ _ _ => cases hf
  | arity _ _ h =>
    cases hf
    exact ⟨0, (by decide : ["E130", "E131"] ⊆ codesAfter 0) (ArityTables.build_fault h).1, rfl⟩
  | keyword _ _ _ h =>
    cases hf
    exact ⟨0, (by decide : ["E140", "E141", "E142"] ⊆ codesAfter 0) (Keyword.arityFault?_code h), rfl⟩
  | negation _ h =>
    cases hf
    obtain ⟨r, -, hr⟩ := List.exists_of_findSome?_eq_some h
    exact ⟨1, by simp [Rule.negationFault?_code hr, codesAfter], rfl⟩
  | unbound _ _ h =>
    cases hf
    obtain ⟨r, -, hr⟩ := List.exists_of_findSome?_eq_some h
    obtain ⟨x, rfl, -⟩ := Rule.safetyFault?_eq_some hr
    exact ⟨1, by simp [Fault.code, codesAfter], rfl⟩
  | cycle _ _ _ _ h =>
    cases hf
    obtain ⟨a, b, rfl⟩ := Graph.cycleFault?_eq_some h
    exact ⟨1, by simp [Fault.code, codesAfter], rfl⟩
  | misplaced _ h =>
    cases hf
    exact ⟨2, Keyword.places_code h, rfl⟩
  | dependent _ _ h =>
    cases hf
    exact ⟨3, (by decide : ["E173", "E174"] ⊆ codesAfter 3) (Keyword.dependence_code h), rfl⟩
  | growth hs _ _ h =>
    cases hf
    obtain ⟨r, -, head, u, -, rfl, -⟩ :=
      Rule.growthFaultIn?_eq_some (ArityTables.head_named hs.tables) h
    exact ⟨3, by simp [Fault.code, codesAfter], rfl⟩
  | sound _ => cases hf

/-- The codes of the faults that offer alternatives come after all events. -/
theorem eq_three_of_mem_codesAfter {n : Nat} {code : String} (hn : code ∈ codesAfter n)
    (hcode : code ∈ ["E173", "E174"]) : n = 3 := by
  have hearly : ∀ m < 3, ∀ c ∈ codesAfter m, c ∉ ["E173", "E174"] := by decide
  match n with
  | 0 | 1 | 2 => exact absurd hcode (hearly _ (by decide) _ hn)
  | 3 => rfl
  | n + 4 => cases hn

/-- Every fault that is found has a message. -/
theorem Exit.exists_message?_of_fault (he : Exit items ks run) {f : Fault}
    (hf : run.outcome = .error (.fault f)) : ∃ text, f.message? = some text := by
  by_cases hcode : f.code ∈ ["E173", "E174"]
  · obtain ⟨n, hn, htrace⟩ := he.codesAfter_of_fault hf
    cases eq_three_of_mem_codesAfter hn hcode
    -- the exits with all three events are the last ones
    cases he with
    | @dependent p t g _ _ hplaces hdependence =>
      cases hf
      have hend : (Keyword.checkPlacing g t.sentences.names ks).outcome = .error (.fault f) := by
        unfold Keyword.checkPlacing
        rw [hplaces, hdependence]
        rfl
      exact Keyword.exists_message?_of_checkPlacing hend
    | growth hs _ _ h =>
      cases hf
      obtain ⟨r, -, head, u, -, rfl, -⟩ :=
        Rule.growthFaultIn?_eq_some (ArityTables.head_named hs.tables) h
      exact ⟨_, rfl⟩
    | malformed _ _ _ => cases hf
    | sound _ => cases hf
    | _ => simp [analysisSources] at htrace
  · exact Fault.exists_message?_of_code hcode

/-- Only the tables stumble, and before the first event. -/
theorem Exit.build_of_malformed (he : Exit items ks run) {m : Malformed}
    (hm : run.outcome = .error (.malformed m)) :
    run.trace = [] ∧ ∃ p, Program.ofItems items = .ok p ∧
      ArityTables.build p.facts p.rules = .error (.malformed m) := by
  cases he with
  | malformed hp _ hb =>
    cases hm
    exact ⟨rfl, _, hp, hb⟩
  | _ => cases hm

/-- What the tables stumble over is a head, and none that could be read. -/
theorem exists_head_of_malformed {p : Program} {m : Malformed} (hp : Program.ofItems items = .ok p)
    (hb : ArityTables.build p.facts p.rules = .error (.malformed m)) :
    ∃ r ∈ p.rules, m.node = r.head ∧ (∀ name, r.head ≠ .prop name) ∧
      (∀ name args, r.head ≠ .rel name args) ∧ ∀ name args, r.head ≠ .fn name args := by
  obtain ⟨hm, hn⟩ := ArityTables.build_malformed hb
  rw [mem_sentenceOccurrences, facts_ofItems hp, rules_ofItems hp] at hm
  rcases hm.isSentence_or_head with hs | ⟨r, hr, he⟩
  · exact absurd hn (Node.reading?_ne_none hs)
  · rw [he] at hn
    have hno := fun h => Node.reading?_ne_none_iff.2 h hn
    exact ⟨r, rules_ofItems hp ▸ hr, he, fun name h => hno (.inl ⟨name, h⟩),
      fun name args h => hno (.inr (.inl ⟨name, args, h⟩)),
      fun name args h => hno (.inr (.inr ⟨name, args, h⟩))⟩

end Exits

/-! ## From the analysis to the validation -/

section Validate

variable {items : List Node} {ks : List Keyword}

theorem validate_eq_of_fault {f : Fault} (h : (analyse items ks).outcome = .error (.fault f)) :
    validate items ks = ⟨.error (.fault f), (analyse items ks).trace ++ [.rejected f]⟩ := by
  unfold validate Run.noteRejection
  simp only [h]
  rfl

theorem validate_eq_of_malformed {m : Malformed}
    (h : (analyse items ks).outcome = .error (.malformed m)) :
    validate items ks = ⟨.error (.malformed m), (analyse items ks).trace⟩ := by
  unfold validate Run.noteRejection
  simp only [h]
  rw [Run.bind_eq]
  unfold Run.bind
  rw [h]

theorem validate_ends_refused {f : Fault} (h : (analyse items ks).outcome = .error (.fault f)) :
    Ends items (validate items ks) (.refused f) := by
  obtain ⟨n, hcode, hearly⟩ := (analyse_exit items ks).codesAfter_of_fault h
  obtain ⟨text, htext⟩ := (analyse_exit items ks).exists_message?_of_fault h
  have hmessage := Fault.message_of_message? htext
  have hlast : (Event.rejected f).message = "description rejected: " ++ f.code ++ ": " ++ text :=
    hmessage ▸ rfl
  rw [validate_eq_of_fault h]
  exact ⟨rfl, rfl, n, _, .rejected f, text, rfl, hcode, hearly, rfl, htext, hmessage, hlast⟩

theorem validate_ends_stumbled {m : Malformed} (h : (analyse items ks).outcome = .error (.malformed m)) :
    Ends items (validate items ks) (.stumbled m) := by
  obtain ⟨htrace, p, hp, hb⟩ := (analyse_exit items ks).build_of_malformed h
  rw [validate_eq_of_malformed h]
  exact ⟨rfl, htrace, p, hp, hb, exists_head_of_malformed hp hb⟩

theorem Sound.validate_ends {p : Program} {t : ArityTables} {g : Graph} (h : Sound items ks p t g) :
    ∃ ws, Ends items (validate items ks) (.accepted ws) := by
  obtain ⟨late, hl⟩ := undefinedWarnings_isOk h.program h.tables
  rw [h.validate_eq hl]
  exact ⟨_, rfl, fun _ _ => rfl, rfl⟩

/-- Every validation has an ending. -/
theorem validate_exists_ending (items : List Node) (ks : List Keyword) :
    ∃ e, Ends items (validate items ks) e := by
  have he := analyse_exit items ks
  rcases ho : (analyse items ks).outcome with (f | m) | a
  · exact ⟨_, validate_ends_refused ho⟩
  · exact ⟨_, validate_ends_stumbled ho⟩
  · generalize analyse items ks = run at he ho
    cases he with
    | sound h =>
      obtain ⟨ws, hws⟩ := h.validate_ends
      exact ⟨_, hws⟩
    | _ => cases ho

/-- Items whose tables are built do not make a validation stumble. -/
theorem validate_ne_malformed {p : Program} {t : ArityTables} (hp : Program.ofItems items = .ok p)
    (ht : ArityTables.build p.facts p.rules = .ok t) (m : Malformed) :
    (validate items ks).outcome ≠ .error (.malformed m) := by
  intro hm
  obtain ⟨e, he⟩ := validate_exists_ending items ks
  cases e with
  | stumbled m' =>
    obtain ⟨-, -, p', hp', hb, -⟩ := he
    cases hp.symm.trans hp'
    cases ht.symm.trans hb
  | _ => cases hm.symm.trans he.1

end Validate

/-- A validation has exactly one ending, with the events that belong to it. Once the tables of the
items are built, the graph, the search for growing terms and the search for undefined names all give
an answer, and the validation does not stumble. -/
theorem validate_ends_uniquely (items : List Node) (ks : List Keyword) :
    (∃! e, Ends items (validate items ks) e) ∧
      ∀ p t, Program.ofItems items = .ok p → ArityTables.build p.facts p.rules = .ok t →
        (∃ g, Graph.ofRules p.rules = .ok g) ∧
          (∀ ancestors, ∃ found, Rule.growthFaultIn? ancestors p.rules = .ok found) ∧
          (∃ late, undefinedWarnings p.facts p.rules = .ok late) ∧
          ∀ m, (validate items ks).outcome ≠ .error (.malformed m) := by
  constructor
  · obtain ⟨e, he⟩ := validate_exists_ending items ks
    exact ⟨e, he, fun e' he' => he'.unique he⟩
  · intro p t hp ht
    have hnamed := ArityTables.head_named ht
    exact ⟨Graph.ofRules_isOk hnamed, fun ancestors => Rule.growthFaultIn?_isOk ancestors hnamed,
      undefinedWarnings_isOk hp ht, validate_ne_malformed hp ht⟩

/-- A game whose rule has a variable for its head. -/
def headlessGame : List Node :=
  [.rel "role" [.const "x"], .rule (.var "?r") [.rel "role" [.var "?r"]]]

/-- The headless game stumbles over its head, while a game whose tables are built does not, although
it is refused. -/
theorem endings_of_two_games :
    Ends headlessGame (validate headlessGame []) (.stumbled ⟨.var "?r", .arity⟩) ∧
      ∀ m, (validate loopingGame []).outcome ≠ .error (.malformed m) := by
  constructor
  · obtain ⟨e, he, -⟩ := (validate_ends_uniquely headlessGame []).1
    have ho : (validate headlessGame []).outcome = .error (.malformed ⟨.var "?r", .arity⟩) := by
      decide +kernel
    cases e <;> cases ho.symm.trans he.1
    exact he
  · have h := (validate_ends_uniquely loopingGame []).2
      ⟨[.rel "role" [.const "x"]], [⟨.rel "wins" [.var "?r"],
        [.prop "open", .neg (.rel "wins" [.var "?r"])]⟩], []⟩
      ⟨⟨[("role", 1), ("wins", 1), ("open", 0)]⟩, ⟨[]⟩⟩ (by decide +kernel) (by decide +kernel)
    exact h.2.2.2

end GameRules
