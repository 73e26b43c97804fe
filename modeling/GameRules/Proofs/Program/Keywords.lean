/-
Keywords in accepted descriptions. What a table of keywords asks, it asks of each keyword and of each
two of them; a table that asks no more of its keywords accepts whatever the other one accepts, with
the same warnings, since no warning depends on the table. And a required keyword is not left
undefined in silence: a fact or a head defines it with its own arity, or a warning names it.
-/
import GameRules.Proofs.Program.Warnings

namespace GameRules

namespace Keyword

/-! ## Tables that ask no more -/

/-- A keyword with the name and the arity of another one that is required and restricted no more than
that one is. -/
structure AsksNoMore (k' k : Keyword) : Prop where
  name : k'.name = k.name
  arity : k'.arity = k.arity
  required : k'.required = true → k.required = true
  placement : ∀ q ∈ k'.placement, q ∈ k.placement

theorem AsksNoMore.refl (k : Keyword) : k.AsksNoMore k := ⟨rfl, rfl, id, fun _ => id⟩

/-- Each keyword of a table asks no more than some keyword of another one. -/
def NoStricter (ks' ks : List Keyword) : Prop := ∀ k' ∈ ks', ∃ k ∈ ks, k'.AsksNoMore k

section Mono

variable {facts : List Node} {rules : List Rule} {ks ks' : List Keyword} (hks : NoStricter ks' ks)
include hks

theorem Spelled.mono (h : Spelled facts rules ks) : Spelled facts rules ks' where
  present k' hk' hr := by
    obtain ⟨k, hk, hle⟩ := hks k' hk'
    rw [hle.name]
    exact h.present k hk (hle.required hr)
  arity k' hk' s n hs hn ha := by
    obtain ⟨k, hk, hle⟩ := hks k' hk'
    rw [hle.arity]
    exact h.arity k hk s n hs (hle.name ▸ hn) ha
  functions k' hk' f hf := by
    obtain ⟨k, hk, hle⟩ := hks k' hk'
    rw [hle.name]
    exact h.functions k hk f hf

/-- The last two restrictions are about two keywords at a time, and both come from the other table. -/
theorem Placed.mono (h : Placed facts rules ks) : Placed facts rules ks' where
  heads k' hk' hp := by
    obtain ⟨k, hk, hle⟩ := hks k' hk'
    rw [hle.name]
    exact h.heads k hk (hp.imp (hle.placement _) (hle.placement _))
  bodies k' hk' hp a := by
    obtain ⟨k, hk, hle⟩ := hks k' hk'
    rw [hle.name]
    exact h.bodies k hk (hle.placement _ hp) a
  turn k' hk' hp m' hm' hm'p hocc := by
    obtain ⟨k, hk, hle⟩ := hks k' hk'
    obtain ⟨m, hm, hmle⟩ := hks m' hm'
    rw [hmle.name] at hocc
    rw [hle.name, hmle.name]
    exact h.turn k hk (hle.placement _ hp) m hm (hmle.placement _ hm'p) hocc
  action k' hk' hp m' hm' hm'p hocc := by
    obtain ⟨k, hk, hle⟩ := hks k' hk'
    obtain ⟨m, hm, hmle⟩ := hks m' hm'
    rw [hmle.name] at hocc
    rw [hle.name, hmle.name]
    exact h.action k hk (hle.placement _ hp) m hm (hmle.placement _ hm'p) hocc

end Mono

end Keyword

section Sound

variable {items : List Node} {ks ks' : List Keyword} {p : Program} {t : ArityTables} {g : Graph}

theorem Sound.spelled (h : Sound items ks p t g) :
    Keyword.Spelled (factsOf items) (rulesOf items) ks :=
  (keywords_holds_iff h.program h.tables).2 h.keywords

theorem Sound.placed (h : Sound items ks p t g) :
    Keyword.Placed (factsOf items) (rulesOf items) ks :=
  (places_holds_iff h.program h.tables h.graph).2 ⟨h.places, h.dependence⟩

/-- An analysis that goes through all stages does so with the same program, tables and graph under
every table that asks no more. -/
theorem Sound.mono (h : Sound items ks p t g) (hks : Keyword.NoStricter ks' ks) :
    Sound items ks' p t g := by
  have hspelled : Condition.keywords.Holds items ks' := h.spelled.mono hks
  have hplaced : Condition.places.Holds items ks' := h.placed.mono hks
  have hkeywords := (keywords_holds_iff h.program h.tables).1 hspelled
  obtain ⟨hplaces, hdependence⟩ := (places_holds_iff h.program h.tables h.graph).1 hplaced
  exact ⟨⟨⟨h.program, h.forms, h.tables, hkeywords⟩, h.negations, h.safety, h.graph, h.strata⟩,
    hplaces, hdependence, h.growth⟩

end Sound

/-- A description that is accepted under a table of keywords is accepted under every table that asks
no more, in particular under a table of some of these keywords, with the same warnings. -/
theorem validate_of_noStricter (items : List Node) (ks ks' : List Keyword)
    (hks : Keyword.NoStricter ks' ks) (ws : List Warning)
    (h : (validate items ks).outcome = .ok ws) : (validate items ks').outcome = .ok ws := by
  obtain ⟨p, t, g, hs⟩ := validate_isOk_iff.1 ⟨ws, h⟩
  obtain ⟨late, hl⟩ := undefinedWarnings_isOk hs.program hs.tables
  rw [hs.validate_eq hl] at h
  rw [(hs.mono hks).validate_eq hl]
  exact h

/-- A game whose only light may be broken, which nothing defines. -/
def lightGame : List Node :=
  [.rel "role" [.const "robot"], .rel "init" [.const "off"],
    .rule (.rel "legal" [.const "robot", .const "press"]) [.rel "true" [.const "off"]],
    .rule (.rel "next" [.const "on"]) [.rel "does" [.const "robot", .const "press"]],
    .rule (.rel "goal" [.const "robot", .const "100"]) [.rel "true" [.const "on"]],
    .rule (.prop "terminal") [.disj [.rel "true" [.const "on"], .neg (.prop "broken")]]]

/-- The keywords that need not occur, backwards, and one that is no longer required. -/
def laxTable : List Keyword := ⟨"role", 1, false, "", []⟩ :: (Keyword.standard.drop 4).reverse

/-- What is accepted with the standard keywords is accepted with fewer demands, and the warning
stays. -/
theorem lightGame_laxTable :
    (validate lightGame laxTable).outcome = .ok [.undefinedSentence "broken"] := by
  refine validate_of_noStricter lightGame Keyword.standard laxTable ?_ _ (by decide +kernel)
  intro k hk
  rcases List.mem_cons.1 hk with rfl | hk
  · exact ⟨⟨"role", 1, true, "argument: the player name", [.factsOnly]⟩, by decide,
      ⟨rfl, rfl, nofun, nofun⟩⟩
  · exact ⟨k, List.mem_of_mem_drop (List.mem_reverse.1 hk), .refl k⟩

/-! ## Required keywords -/

/-- A fact for a name, or a rule with the name in its head. -/
def Node.Introduces (name : String) : Node → Prop
  | .rel name' _ => name' = name
  | .rule head _ => head.name? = some name
  | _ => False

/-- An item that defines a keyword with the arity of the keyword: a fact, or a rule unless only facts
may define the keyword. -/
inductive Keyword.DefinedBy (k : Keyword) : Node → Prop where
  | fact {args : List Node} : (args.length : Int) = k.arity → DefinedBy k (.rel k.name args)
  | rule {head : Node} {body : List Node} {n : Nat} : .factsOnly ∉ k.placement →
    head.name? = some k.name → head.arity? = some n → (n : Int) = k.arity →
    DefinedBy k (.rule head body)

/-- Some warning says that a name is undefined. -/
def WarnsUndefined (ws : List Warning) (name : String) : Prop :=
  ∃ w ∈ ws, w.code = "W190" ∧ w.diagnostic.subject = .name name

theorem exists_introduces_iff {items : List Node} {name : String} :
    (∃ n ∈ items, n.Introduces name) ↔
      (∃ s ∈ factsOf items, s.name? = some name) ∨ Defines (rulesOf items) name := by
  constructor
  · rintro ⟨n, hn, hi⟩
    cases n with
    | rel name' args => exact .inl ⟨_, List.mem_filter.2 ⟨hn, rfl⟩, congrArg some hi⟩
    | rule head body => exact .inr ⟨⟨head, body⟩, List.mem_filterMap.2 ⟨_, hn, rfl⟩, hi⟩
    | _ => cases hi
  · rintro (⟨s, hs, hname⟩ | ⟨r, hr, hname⟩)
    · obtain ⟨hs, hrel⟩ := List.mem_filter.1 hs
      cases s with
      | rel name' args => exact ⟨_, hs, Option.some.inj hname⟩
      | _ => cases hrel
    · obtain ⟨n, hn, hr⟩ := List.mem_filterMap.1 hr
      cases n with
      | rule head body =>
        cases hr
        exact ⟨_, hn, hname⟩
      | _ => cases hr

theorem warnsUndefined_iff {ws : List Warning} {name : String} :
    WarnsUndefined ws name ↔ .undefinedSentence name ∈ ws := by
  constructor
  · rintro ⟨w, hw, hcode, hsubject⟩
    cases w with
    | undefinedSentence name' =>
      cases hsubject
      exact hw
    | _ => simp [Warning.code] at hcode
  · exact fun hw => ⟨_, hw, rfl, rfl⟩

/-- The names that an accepted description is warned of are those that bodies use and nothing
defines. -/
theorem warnsUndefined_iff_isUndefined {items : List Node} {ks : List Keyword} {ws : List Warning}
    (h : (validate items ks).outcome = .ok ws) {name : String} :
    WarnsUndefined ws name ↔ IsUndefined (factsOf items) (rulesOf items) name := by
  obtain ⟨shared, undefined, he, rfl⟩ := exists_earned h
  rw [warnsUndefined_iff, ← he.mem_undefined]
  simp [warningsFor]

section Required

variable {items : List Node} {ks : List Keyword} {p : Program} {t : ArityTables} {g : Graph}
  (h : Sound items ks p t g) {k : Keyword} (hk : k ∈ ks)
include h hk

/-- Whatever introduces a keyword in an accepted description defines it properly. -/
theorem Sound.definedBy {n : Node} (hn : n ∈ items) (hi : n.Introduces k.name) : k.DefinedBy n := by
  cases n with
  | rel name args =>
    cases hi
    have hs : SentenceOf (factsOf items) (rulesOf items) (.rel k.name args) :=
      .inl (List.mem_filter.2 ⟨hn, rfl⟩)
    exact .fact (h.spelled.arity k hk _ _ hs rfl rfl)
  | rule head body =>
    have hr : ⟨head, body⟩ ∈ rulesOf items := List.mem_filterMap.2 ⟨_, hn, rfl⟩
    have hs : SentenceOf (factsOf items) (rulesOf items) head := .inr ⟨_, hr, .inl rfl⟩
    have hread := (HeadsNamed.of_build h.program h.tables).reading?_ne_none hs
    obtain ⟨⟨name, arity⟩, hread⟩ := Option.ne_none_iff_exists'.1 hread
    have harity := (Node.reading?_eq_some.1 hread).2
    exact .rule (fun hp => h.placed.heads k hk (.inl hp) ⟨_, hr, hi⟩) hi harity
      (h.spelled.arity k hk head _ hs hi harity)
  | _ => cases hi

/-- A required keyword that nothing introduces is used in a body. -/
theorem Sound.used_of_required (hreq : k.required = true)
    (hno : ¬ ∃ n ∈ items, n.Introduces k.name) :
    ∃ r ∈ rulesOf items, ∃ s negated, r.Uses s negated ∧ s.name? = some k.name := by
  obtain ⟨s, hs | ⟨r, hr, rfl | ⟨negated, hu⟩⟩, hname⟩ := h.spelled.present k hk hreq
  · exact absurd (exists_introduces_iff.2 (.inl ⟨s, hs, hname⟩)) hno
  · exact absurd (exists_introduces_iff.2 (.inr ⟨r, hr, hname⟩)) hno
  · exact ⟨r, hr, s, negated, hu, hname⟩

end Required

/-- In an accepted description every required keyword that the game does not supply is defined with
its own arity, by a fact if only facts may define it, or a warning names it. The warning is there
exactly if no fact and no head has the name; bare propositions make no difference. -/
theorem validate_required_defined_or_warned (items : List Node) (ks : List Keyword)
    (ws : List Warning) (h : (validate items ks).outcome = .ok ws) (k : Keyword) (hk : k ∈ ks)
    (hreq : k.required = true) (htrue : k.name ≠ "true") (hdoes : k.name ≠ "does") :
    ((∃ n ∈ items, k.DefinedBy n) ∨ WarnsUndefined ws k.name) ∧
      (WarnsUndefined ws k.name ↔ ¬ ∃ n ∈ items, n.Introduces k.name) := by
  obtain ⟨p, t, g, hs⟩ := validate_isOk_iff.1 ⟨ws, h⟩
  have hwarned : WarnsUndefined ws k.name ↔ ¬ ∃ n ∈ items, n.Introduces k.name := by
    rw [warnsUndefined_iff_isUndefined h]
    constructor
    · rintro ⟨-, hfacts, hheads, -⟩ hi
      rcases exists_introduces_iff.1 hi with ⟨s, hs, hname⟩ | ⟨r, hr, hname⟩
      · exact hfacts s hs hname
      · exact hheads r hr hname
    · intro hno
      have hnone := mt exists_introduces_iff.2 hno
      simp only [not_or, not_exists, not_and, Defines] at hnone
      exact ⟨hs.used_of_required hk hreq hno, hnone.1, hnone.2, htrue, hdoes⟩
  refine ⟨?_, hwarned⟩
  by_cases hi : ∃ n ∈ items, n.Introduces k.name
  · obtain ⟨n, hn, hi⟩ := hi
    exact .inl ⟨n, hn, hs.definedBy hk hn hi⟩
  · exact .inr (hwarned.2 hi)

/-- A game whose goal depends on its end, of which only a bare proposition is given. -/
def endlessGame : List Node :=
  [.rel "role" [.const "x"], .prop "terminal",
    .rule (.rel "goal" [.var "?r", .const "0"]) [.rel "role" [.var "?r"], .neg (.prop "terminal")]]

/-- The role is defined by its fact, and of the other required keyword a warning is given. -/
theorem keywords_of_endlessGame :
    (∃ n ∈ endlessGame, Keyword.DefinedBy ⟨"role", 1, true, "", [.factsOnly]⟩ n) ∧
      WarnsUndefined [.bareProposition "terminal", .undefinedSentence "terminal"] "terminal" := by
  have hv : (validate endlessGame
      [⟨"role", 1, true, "", [.factsOnly]⟩, ⟨"terminal", 0, true, "", [.turnMarker]⟩]).outcome =
        .ok [.bareProposition "terminal", .undefinedSentence "terminal"] := by
    decide +kernel
  obtain ⟨hdefined, hrole⟩ := validate_required_defined_or_warned _ _ _ hv
    ⟨"role", 1, true, "", [.factsOnly]⟩ (by decide) rfl (by decide) (by decide)
  obtain ⟨-, hterminal⟩ := validate_required_defined_or_warned _ _ _ hv
    ⟨"terminal", 0, true, "", [.turnMarker]⟩ (by decide) rfl (by decide) (by decide)
  constructor
  · exact hdefined.resolve_right fun hw => hrole.1 hw ⟨_, List.mem_cons_self, rfl⟩
  · refine hterminal.2 ?_
    simp [endlessGame, Node.Introduces, Node.name?]

end GameRules
