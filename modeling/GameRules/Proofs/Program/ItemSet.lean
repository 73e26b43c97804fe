/-
The order of the items and how often each is given do not matter. What a description has to satisfy
is said of the sets of its facts and rules, so two lists of the same items break the same conditions
first and earn warnings for the same names. Where a fault is searched in the order of the keywords,
or of the names themselves, even the fault is the same.
-/
import GameRules.Proofs.Program.Warnings

namespace GameRules

/-- The codes of the faults that are searched in the order of the keywords or of the names. -/
def settledCodes : List String := ["E140", "E141", "E170", "E171", "E172", "E173", "E174"]

/-- Two lists hold the same items, in whatever order and however often. -/
def SameItems (items items' : List Node) : Prop := ∀ n, n ∈ items ↔ n ∈ items'

namespace SameItems

/-! ## What the same items have in common -/

section Common

variable {items items' : List Node}

theorem symm (h : SameItems items items') : SameItems items' items := fun n => (h n).symm

variable (h : SameItems items items')
include h

theorem mem_facts (n : Node) : n ∈ factsOf items ↔ n ∈ factsOf items' := by
  unfold factsOf
  rw [List.mem_filter, List.mem_filter, h n]

theorem mem_rules (r : Rule) : r ∈ rulesOf items ↔ r ∈ rulesOf items' := by
  unfold rulesOf
  simp only [List.mem_filterMap, h _]

theorem headsNamed (hh : HeadsNamed items) : HeadsNamed items' :=
  fun head body hr => hh head body ((h _).2 hr)

theorem sentenceOf_eq :
    SentenceOf (factsOf items) (rulesOf items) = SentenceOf (factsOf items') (rulesOf items') := by
  funext s
  unfold SentenceOf
  simp only [h.mem_facts, h.mem_rules]

theorem functionOf_eq :
    FunctionOf (factsOf items) (rulesOf items) = FunctionOf (factsOf items') (rulesOf items') := by
  funext f
  unfold FunctionOf
  rw [h.sentenceOf_eq]

theorem occurs_eq : Keyword.Occurs (factsOf items) (rulesOf items) =
    Keyword.Occurs (factsOf items') (rulesOf items') := by
  funext name
  unfold Keyword.Occurs
  rw [h.sentenceOf_eq]

theorem defines_eq : Defines (rulesOf items) = Defines (rulesOf items') := by
  funext a
  unfold Defines
  simp only [h.mem_rules]

theorem depends_eq : Depends (rulesOf items) = Depends (rulesOf items') := by
  funext a b
  unfold Depends
  simp only [h.mem_rules]

theorem dependsNegatively_eq :
    DependsNegatively (rulesOf items) = DependsNegatively (rulesOf items') := by
  funext a b
  unfold DependsNegatively
  simp only [h.mem_rules]

theorem reaches_eq : Reaches (rulesOf items) = Reaches (rulesOf items') := by
  unfold Reaches
  rw [h.depends_eq]

theorem isShared_eq : IsShared (factsOf items) (rulesOf items) =
    IsShared (factsOf items') (rulesOf items') := by
  funext name
  unfold IsShared
  rw [h.sentenceOf_eq, h.functionOf_eq]

theorem isUndefined_eq : IsUndefined (factsOf items) (rulesOf items) =
    IsUndefined (factsOf items') (rulesOf items') := by
  funext name
  unfold IsUndefined
  simp only [h.mem_facts, h.mem_rules]

/-! ## The same conditions -/

theorem holds {ks : List Keyword} {c : Condition} (hc : c.Holds items ks) : c.Holds items' ks := by
  cases c with
  | items => exact fun n hn => hc n ((h n).2 hn)
  | forms => exact fun n hn => hc n ((h n).2 hn)
  | arities =>
    obtain ⟨hs, hf⟩ := hc
    rw [h.sentenceOf_eq] at hs
    rw [h.functionOf_eq] at hf
    exact ⟨hs, hf⟩
  | keywords =>
    obtain ⟨hp, ha, hf⟩ := hc
    rw [h.occurs_eq] at hp
    rw [h.sentenceOf_eq] at ha
    rw [h.functionOf_eq] at hf
    exact ⟨hp, ha, hf⟩
  | negations => exact fun r hr => hc r ((h.mem_rules r).2 hr)
  | safety => exact fun r hr => hc r ((h.mem_rules r).2 hr)
  | strata =>
    unfold Condition.Holds NoNegativeCycle at hc ⊢
    rwa [h.dependsNegatively_eq, h.reaches_eq] at hc
  | places =>
    obtain ⟨hh, hb, ht, ha⟩ := hc
    rw [h.defines_eq] at hh
    rw [h.depends_eq] at hb
    rw [h.occurs_eq, h.reaches_eq] at ht ha
    exact ⟨hh, hb, ht, ha⟩
  | growth =>
    intro r hr head hn
    have hr' := hc r ((h.mem_rules r).2 hr) head hn
    rwa [h.reaches_eq] at hr'

theorem firstBroken {ks : List Keyword} {c : Condition} (hc : c.FirstBroken items ks) :
    c.FirstBroken items' ks :=
  ⟨fun d hd => h.holds (hc.1 d hd), fun hc' => hc.2 (h.symm.holds hc')⟩

end Common

end SameItems

/-- Only one condition can be the first that is broken. -/
theorem Condition.FirstBroken.unique {items : List Node} {ks : List Keyword} {c d : Condition}
    (hc : c.FirstBroken items ks) (hd : d.FirstBroken items ks) : c = d := by
  rcases Nat.lt_trichotomy c.rank d.rank with hlt | heq | hgt
  · exact absurd (hd.1 c hlt) hc.2
  · exact rank_injective heq
  · exact absurd (hc.1 d hgt) hd.2

/-- Shared names are listed once: none is mentioned before itself. -/
theorem Earned.nodup_shared {items : List Node} {shared undefined : List String}
    (h : Earned items shared undefined) : shared.Nodup := by
  refine h.order_shared.imp fun {a b} hab => ?_
  rintro rfl
  obtain ⟨p, k, hp, hbefore⟩ := hab
  exact List.lt_irrefl p (hbefore p k hp)

/-! ## From conditions to stages -/

section Stages

variable {items : List Node} {ks : List Keyword} {f : Fault}

theorem exists_program (h : Condition.items.Holds items ks) : ∃ p, Program.ofItems items = .ok p := by
  cases hp : Program.ofItems items with
  | error f => exact absurd h (ofItems_error hp).2
  | ok p => exact ⟨p, rfl⟩

theorem HoldBefore.exists_tables (hh : HeadsNamed items)
    (hb : HoldBefore items ks Condition.keywords.rank) :
    ∃ p t, Program.ofItems items = .ok p ∧
      Node.emptyFormFault? (p.facts ++ p.rules.map Rule.toNode) = none ∧
      ArityTables.build p.facts p.rules = .ok t := by
  obtain ⟨p, hp⟩ := exists_program (hb .items (by decide))
  have hf := (forms_holds_iff hp).1 (hb .forms (by decide))
  obtain ⟨t, ht⟩ := (arities_holds_iff hp hh).1 (hb .arities (by decide))
  exact ⟨p, t, hp, hf, ht⟩

theorem HoldBefore.exists_stratified (hh : HeadsNamed items)
    (hb : HoldBefore items ks Condition.places.rank) : ∃ p t g, Stratified items ks p t g := by
  have hb' : HoldBefore items ks Condition.keywords.rank :=
    fun d hd => hb d (Nat.lt_trans hd (by decide))
  obtain ⟨p, t, hp, hf, ht⟩ := hb'.exists_tables hh
  have hk := (keywords_holds_iff hp ht).1 (hb .keywords (by decide))
  have hn := (negations_holds_iff hp).1 (hb .negations (by decide))
  have hs := (safety_holds_iff hp).1 (hb .safety (by decide))
  obtain ⟨g, hg⟩ := Graph.ofRules_isOk (ArityTables.head_named ht)
  have hc := (strata_holds_iff hp hg t.sentences.names).1 (hb .strata (by decide))
  exact ⟨p, t, g, ⟨hp, hf, ht, hk⟩, hn, hs, hg, hc⟩

theorem validate_outcome_of_keyword {p : Program} {t : ArityTables}
    (hp : Program.ofItems items = .ok p)
    (hf : Node.emptyFormFault? (p.facts ++ p.rules.map Rule.toNode) = none)
    (ht : ArityTables.build p.facts p.rules = .ok t)
    (hk : Keyword.arityFault? t.sentences t.functions ks = some f) :
    (validate items ks).outcome = .error (.fault f) := by
  refine validate_outcome_of_error ?_
  rw [analyse_eq_examine hp]
  unfold examine
  simp only [hf, ht, hk, Run.lift_failure, Run.reject?, Run.ok_bind]
  rfl

/-- What the two checks of the places of keywords find, one after the other. -/
def placingFault? (g : Graph) (names : List String) (ks : List Keyword) : Option Fault :=
  ((Keyword.headFault? g ks).or (Keyword.bodyFault? g ks)).or
    ((Keyword.turnFault? g names ks).or (Keyword.actionFault? g names ks))

theorem Stratified.validate_outcome {p : Program} {t : ArityTables} {g : Graph}
    (h : Stratified items ks p t g) (hf : placingFault? g t.sentences.names ks = some f) :
    (validate items ks).outcome = .error (.fault f) := by
  refine validate_outcome_of_error ?_
  rw [h.analyse_eq]
  unfold Keyword.checkPlacing
  unfold placingFault? at hf
  cases hp : (Keyword.headFault? g ks).or (Keyword.bodyFault? g ks) with
  | some f' =>
    rw [hp] at hf
    cases hf
    rfl
  | none =>
    rw [hp, Option.none_or] at hf
    rw [hf]
    rfl

end Stages

/-! ## The same faults -/

namespace SameItems

variable {items items' : List Node} {ks : List Keyword} {f : Fault}

section Tables

variable {p p' : Program} {t t' : ArityTables} (h : SameItems items items')
  (hp : Program.ofItems items = .ok p) (hp' : Program.ofItems items' = .ok p')
  (ht : ArityTables.build p.facts p.rules = .ok t)
  (ht' : ArityTables.build p'.facts p'.rules = .ok t')
include h hp hp' ht ht'

/-- The same items give each sentence name the same arity, wherever it stands in the tables. -/
theorem arity?_eq : t.sentences.arity? = t'.sentences.arity? := by
  funext name
  refine Option.ext fun j => ?_
  have hs := (ArityTables.build_ok ht).2.sentences name j
  have hs' := (ArityTables.build_ok ht').2.sentences name j
  rw [facts_ofItems hp, rules_ofItems hp] at hs
  rw [facts_ofItems hp', rules_ofItems hp'] at hs'
  rw [hs, hs']
  simp only [mem_sentenceReadings, h.sentenceOf_eq]

theorem mem_names_iff (name : String) : name ∈ t.sentences.names ↔ name ∈ t'.sentences.names := by
  rw [Keyword.mem_names_iff_occurs ht, Keyword.mem_names_iff_occurs ht', facts_ofItems hp,
    rules_ofItems hp, facts_ofItems hp', rules_ofItems hp', h.occurs_eq]

theorem placingFault?_eq (ks : List Keyword) {g g' : Graph} (hg : Graph.ofRules p.rules = .ok g)
    (hg' : Graph.ofRules p'.rules = .ok g') :
    placingFault? g t.sentences.names ks = placingFault? g' t'.sentences.names ks := by
  have hnames := h.mem_names_iff hp hp' ht ht'
  rw [rules_ofItems hp] at hg
  rw [rules_ofItems hp'] at hg'
  -- the searches read the heads, the targets and two sets of dependents, each a set of names
  have hheads : g.heads = g'.heads := by
    refine NameSet.ext fun x => ?_
    rw [Graph.mem_heads_ofRules hg, Graph.mem_heads_ofRules hg', h.defines_eq]
  have htargets : g.targets = g'.targets := by
    refine NameSet.ext fun x => ?_
    rw [Graph.mem_targets_ofRules hg, Graph.mem_targets_ofRules hg', h.depends_eq]
  have hturn : Keyword.turnDependents g t.sentences.names ks =
      Keyword.turnDependents g' t'.sentences.names ks := by
    refine NameSet.ext fun x => ?_
    simp only [Keyword.mem_turnDependents, Graph.path_ofRules_iff hg, Graph.path_ofRules_iff hg',
      hnames, h.reaches_eq]
  have haction : Keyword.actionDependents g t.sentences.names ks =
      Keyword.actionDependents g' t'.sentences.names ks := by
    refine NameSet.ext fun x => ?_
    simp only [Keyword.mem_actionDependents, Graph.path_ofRules_iff hg, Graph.path_ofRules_iff hg',
      hnames, h.reaches_eq]
  unfold placingFault? Keyword.headFault? Keyword.bodyFault? Keyword.turnFault? Keyword.actionFault?
  rw [hheads, htargets, hturn, haction]

/-- A fault of a keyword as a sentence name is found in the order of the keywords. -/
theorem arityFault?_eq_some (hf : Keyword.arityFault? t.sentences t.functions ks = some f)
    (hc : f.code ∈ ["E140", "E141"]) :
    Keyword.arityFault? t'.sentences t'.functions ks = some f := by
  have heq : Keyword.sentenceFault? t.sentences = Keyword.sentenceFault? t'.sentences := by
    funext k
    unfold Keyword.sentenceFault?
    rw [h.arity?_eq hp hp' ht ht']
  unfold Keyword.arityFault? at hf ⊢
  rcases Option.or_eq_some_iff.1 hf with hs | ⟨-, hfn⟩
  · rw [← heq, hs, Option.some_or]
  · obtain ⟨name, -, rfl⟩ := Option.map_eq_some_iff.1 hfn
    simp [Fault.code] at hc

end Tables

section Outcome

variable (h : SameItems items items') (hh : HeadsNamed items)
include h hh

theorem outcome_eq_of_keywords (hb : Condition.keywords.FirstBroken items ks)
    (hv : (validate items ks).outcome = .error (.fault f)) (hc : f.code ∈ ["E140", "E141"]) :
    (validate items' ks).outcome = .error (.fault f) := by
  obtain ⟨p, t, hp, hf, ht⟩ := hb.1.exists_tables hh
  obtain ⟨p', t', hp', hf', ht'⟩ := (h.firstBroken hb).1.exists_tables (h.headsNamed hh)
  obtain ⟨f₁, hk⟩ := Option.ne_none_iff_exists'.1 fun hn => hb.2 ((keywords_holds_iff hp ht).2 hn)
  cases hv.symm.trans (validate_outcome_of_keyword hp hf ht hk)
  exact validate_outcome_of_keyword hp' hf' ht' (h.arityFault?_eq_some hp hp' ht ht' hk hc)

theorem outcome_eq_of_places (hb : Condition.places.FirstBroken items ks) :
    (validate items ks).outcome = (validate items' ks).outcome := by
  obtain ⟨p, t, g, hs⟩ := hb.1.exists_stratified hh
  obtain ⟨p', t', g', hs'⟩ := (h.firstBroken hb).1.exists_stratified (h.headsNamed hh)
  have heq := h.placingFault?_eq hs.program hs'.program hs.tables hs'.tables ks hs.graph hs'.graph
  have hsome : placingFault? g t.sentences.names ks ≠ none := by
    intro hn
    unfold placingFault? at hn
    rw [Option.or_eq_none_iff] at hn
    exact hb.2 ((places_holds_iff hs.program hs.tables hs.graph).2 hn)
  obtain ⟨f, hf⟩ := Option.ne_none_iff_exists'.1 hsome
  rw [hs.validate_outcome hf, hs'.validate_outcome (heq ▸ hf)]

theorem outcome_eq_of_settled (hv : (validate items ks).outcome = .error (.fault f))
    (hc : f.code ∈ settledCodes) : (validate items' ks).outcome = .error (.fault f) := by
  obtain ⟨c, f₁, hb, hf, hcode⟩ := exists_firstBroken hh hv
  cases hf
  -- only two conditions have such codes, and the first of them has one more, which is excluded here
  cases c with
  | keywords =>
    refine h.outcome_eq_of_keywords hh hb hv ?_
    simp only [Condition.codes, settledCodes, List.mem_cons, List.not_mem_nil, or_false] at hcode hc ⊢
    grind
  | places => exact h.outcome_eq_of_places hh hb ▸ hv
  | _ =>
    simp only [Condition.codes, settledCodes, List.mem_cons, List.not_mem_nil, or_false] at hcode hc
    grind

end Outcome

theorem isOk (h : SameItems items items') (ha : ∃ ws, (validate items ks).outcome = .ok ws) :
    ∃ ws, (validate items' ks).outcome = .ok ws := by
  obtain ⟨p, t, g, hs⟩ := validate_isOk_iff.1 ha
  have hh := HeadsNamed.of_build hs.program hs.tables
  exact isOk_of_holds (h.headsNamed hh) fun c => h.holds (hs.holds hh c)

/-! ## The same warnings -/

section Warnings

variable {shared shared' undefined undefined' : List String}

theorem undefined_eq (h : SameItems items items') (he : Earned items shared undefined)
    (he' : Earned items' shared' undefined') : undefined = undefined' := by
  refine he.order_undefined.eq_of_mem_iff he'.order_undefined fun name => ?_
  rw [he.mem_undefined, he'.mem_undefined, h.isUndefined_eq]

theorem shared_perm (h : SameItems items items') (he : Earned items shared undefined)
    (he' : Earned items' shared' undefined') : shared.Perm shared' := by
  refine (List.perm_ext_iff_of_nodup he.nodup_shared he'.nodup_shared).2 fun name => ?_
  rw [he.mem_shared, he'.mem_shared, h.isShared_eq]

end Warnings

end SameItems

/-- The verdict depends on the set of items only. Two lists of the same items are accepted together,
with the same warnings for undefined names and, up to their order, for shared names, and with one for
each bare proposition that they list. They are refused together for faults of one condition, and for
one fault if either is searched in an order that the items do not give. -/
theorem validate_congr_sameItems (items items' : List Node) (ks : List Keyword)
    (h : SameItems items items') :
    ((∃ ws, (validate items ks).outcome = .ok ws) ↔ ∃ ws, (validate items' ks).outcome = .ok ws) ∧
      (∀ ws ws', (validate items ks).outcome = .ok ws → (validate items' ks).outcome = .ok ws' →
        ws.filter (·.code = "W190") = ws'.filter (·.code = "W190") ∧
          (ws.filter (·.code = "W130")).Perm (ws'.filter (·.code = "W130")) ∧
          ws.filter (·.code = "W100") = (items.filterMap Node.proposition?).map .bareProposition ∧
          ws'.filter (·.code = "W100") =
            (items'.filterMap Node.proposition?).map .bareProposition) ∧
      (HeadsNamed items → ∀ e e', (validate items ks).outcome = .error e →
        (validate items' ks).outcome = .error e' → ∃ (c : Condition) (f f' : Fault),
          e = .fault f ∧ e' = .fault f' ∧ f.code ∈ c.codes ∧ f'.code ∈ c.codes ∧
            (f.code ∈ settledCodes ∨ f'.code ∈ settledCodes → f = f')) := by
  refine ⟨⟨h.isOk, h.symm.isOk⟩, fun ws ws' hw hw' => ?_, fun hh e e' he he' => ?_⟩
  · obtain ⟨shared, undefined, hearned, rfl⟩ := exists_earned hw
    obtain ⟨shared', undefined', hearned', rfl⟩ := exists_earned hw'
    obtain ⟨hbare, hshared, hundefined⟩ :=
      filter_warningsFor (items.filterMap Node.proposition?) shared undefined
    obtain ⟨hbare', hshared', hundefined'⟩ :=
      filter_warningsFor (items'.filterMap Node.proposition?) shared' undefined'
    rw [hundefined, hundefined', hshared, hshared', hbare, hbare', h.undefined_eq hearned hearned']
    exact ⟨rfl, (h.shared_perm hearned hearned').map _, rfl, rfl⟩
  · have hh' := h.headsNamed hh
    obtain ⟨c, f, hb, rfl, hcode⟩ := exists_firstBroken hh he
    obtain ⟨c', f', hb', rfl, hcode'⟩ := exists_firstBroken hh' he'
    cases (h.firstBroken hb).unique hb'
    refine ⟨c, f, f', rfl, rfl, hcode, hcode', ?_⟩
    rintro (hs | hs)
    · cases he'.symm.trans (h.outcome_eq_of_settled hh he hs)
      rfl
    · cases he.symm.trans (h.symm.outcome_eq_of_settled hh' he' hs)
      rfl

/-- A game in which two names are each a sentence's and a function's. -/
def tangledGame : List Node :=
  [.rel "mark" [.fn "open" [.const "x"]], .rel "open" [.fn "mark" [.const "x"]], .prop "draw"]

/-- A game whose rules define both of two keywords that only facts may define. -/
def crownedGame : List Node :=
  [.rel "cell" [.const "a"], .rule (.rel "init" [.var "?x"]) [.rel "cell" [.var "?x"]],
    .rule (.rel "role" [.var "?x"]) [.rel "cell" [.var "?x"]]]

def crownKeywords : List Keyword :=
  [⟨"role", 1, false, "", [.factsOnly]⟩, ⟨"init", 1, false, "", [.factsOnly]⟩]

/-- Read backwards and once more, the one game is still accepted, with its shared names in some
order; read backwards, the other is refused for the same keyword. -/
theorem verdicts_of_games_backwards :
    (∃ ws, (validate (tangledGame.reverse ++ tangledGame) []).outcome = .ok ws ∧
      [.sharedName "mark", .sharedName "open"].Perm (ws.filter (·.code = "W130"))) ∧
      (validate crownedGame.reverse crownKeywords).outcome =
        .error (.fault (.ruleForFacts "role")) := by
  have htangled : SameItems tangledGame (tangledGame.reverse ++ tangledGame) := fun n => by simp
  have hcrowned : SameItems crownedGame crownedGame.reverse := fun n => by simp
  have hnamed : HeadsNamed crownedGame := by
    intro head body h
    simp only [crownedGame, List.mem_cons, reduceCtorEq, Node.rule.injEq, List.not_mem_nil,
      false_or, or_false] at h
    rcases h with ⟨rfl, -⟩ | ⟨rfl, -⟩ <;> exact .inr (.inl ⟨_, _, rfl⟩)
  constructor
  · obtain ⟨haccepted, hwarnings, -⟩ := validate_congr_sameItems _ _ [] htangled
    have hv : (validate tangledGame []).outcome =
        .ok [.bareProposition "draw", .sharedName "mark", .sharedName "open"] := by
      decide +kernel
    obtain ⟨ws, hws⟩ := haccepted.1 ⟨_, hv⟩
    exact ⟨ws, hws, (hwarnings _ _ hv hws).2.1⟩
  · obtain ⟨haccepted, -, hrefused⟩ := validate_congr_sameItems _ _ crownKeywords hcrowned
    have hv : (validate crownedGame crownKeywords).outcome =
        .error (.fault (.ruleForFacts "role")) := by
      decide +kernel
    cases hv' : (validate crownedGame.reverse crownKeywords).outcome with
    | ok ws =>
      obtain ⟨ws', hws'⟩ := haccepted.2 ⟨ws, hv'⟩
      cases hv.symm.trans hws'
    | error e' =>
      obtain ⟨c, f, f', hf, rfl, -, -, hsame⟩ := hrefused hnamed _ _ hv hv'
      cases hf
      rw [← hsame (.inl (by decide))]

end GameRules
