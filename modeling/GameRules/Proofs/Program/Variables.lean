/-
Variables in accepted descriptions. What a rule asserts has no variable of its own: those of its
head stand in a relation of the body, whichever branches are taken. Facts are not looked at for
variables: next to every fact of an accepted description stands, if one likes, the same fact with
variables for all its arguments, and the description is still accepted.
-/
import GameRules.Proofs.Program.Growth

namespace GameRules

/-! ## Heads -/

/-- What binds a variable offers a relation that has it. -/
theorem Node.Binds.exists_leaf {x : String} {l : Node} (h : Binds x l) :
    ∃ name args, .rel name args ∈ l.leaves ∧ VarIn x args := by
  induction h with
  | @rel name args hx => exact ⟨name, args, by simp [leaves], hx⟩
  | @disj ds hne _ ih =>
    obtain ⟨d, hd⟩ := List.exists_mem_of_ne_nil ds hne
    obtain ⟨name, args, hm, hx⟩ := ih d hd
    exact ⟨name, args, mem_leaves_disj.2 ⟨d, hd, hm⟩, hx⟩

theorem Rule.Binds.usedAnywhere {r : Rule} {x : String} (h : r.Binds x) :
    ∃ name args, r.UsedAnywhere name args ∧ Node.VarIn x args := by
  obtain ⟨l, hl, hx⟩ := h
  obtain ⟨name, args, hm, hx⟩ := hx.exists_leaf
  exact ⟨name, args, ⟨l, hl, hm⟩, hx⟩

theorem Sound.binds_head {items : List Node} {ks : List Keyword} {p : Program} {t : ArityTables}
    {g : Graph} (h : Sound items ks p t g) {r : Rule} (hr : r ∈ rulesOf items) {name : String}
    {args : List Node} (hh : r.head = .rel name args) {x : String} (hx : Node.VarIn x args) :
    r.Binds x := by
  have hsafe : Condition.safety.Holds items ks := (safety_holds_iff h.program).2 h.safety
  exact hsafe r hr x (.inl ⟨name, args, hh, hx⟩)

/-! ## Facts -/

/-- A fact with a variable for every argument. -/
def openFact (name : String) (xs : List String) : Node := .rel name (xs.map .var)

theorem onWalk_openFact {m : Node} {name : String} {xs : List String}
    (h : Node.OnWalk m (openFact name xs)) : m = openFact name xs ∨ ∃ x, m = .var x := by
  cases h with
  | self => exact .inl rfl
  | term ht hm =>
    obtain ⟨x, -, rfl⟩ := List.mem_map.1 ht
    cases hm
    exact .inr ⟨x, rfl⟩
  | part hp _ => cases hp

section Sentences

variable {facts : List Node} {rules : List Rule} {name : String} {args : List Node}
  {xs : List String}

theorem sentenceOf_openFact {s : Node} :
    SentenceOf (facts ++ [openFact name xs]) rules s ↔
      SentenceOf facts rules s ∨ s = openFact name xs := by
  unfold SentenceOf
  rw [List.mem_append, List.mem_singleton]
  exact or_right_comm

/-- Variables hold no functions. -/
theorem functionOf_openFact :
    FunctionOf (facts ++ [openFact name xs]) rules = FunctionOf facts rules := by
  funext f
  refine propext ⟨?_, ?_⟩
  · rintro ⟨s, hs, a, ha, hf⟩
    rcases sentenceOf_openFact.1 hs with hs | rfl
    · exact ⟨s, hs, a, ha, hf⟩
    · obtain ⟨x, -, rfl⟩ := List.mem_map.1 ha
      cases hf
  · rintro ⟨s, hs, a, ha, hf⟩
    exact ⟨s, sentenceOf_openFact.2 (.inl hs), a, ha, hf⟩

variable (hmem : .rel name args ∈ facts) (hlen : xs.length = args.length)
include hmem hlen

/-- Beside a fact of its name and length, an open fact brings no new name and no new arity. -/
theorem exists_sentence_of_openFact {s : Node}
    (hs : SentenceOf (facts ++ [openFact name xs]) rules s) :
    ∃ u, SentenceOf facts rules u ∧ s.name? = u.name? ∧ s.arity? = u.arity? := by
  rcases sentenceOf_openFact.1 hs with hs | rfl
  · exact ⟨s, hs, rfl, rfl⟩
  · exact ⟨.rel name args, .inl hmem, rfl, by simp [openFact, Node.arity?, hlen]⟩

theorem occurs_openFact :
    Keyword.Occurs (facts ++ [openFact name xs]) rules = Keyword.Occurs facts rules := by
  funext n
  refine propext ⟨?_, ?_⟩
  · rintro ⟨s, hs, hn⟩
    obtain ⟨u, hu, hname, -⟩ := exists_sentence_of_openFact hmem hlen hs
    exact ⟨u, hu, hname ▸ hn⟩
  · rintro ⟨s, hs, hn⟩
    exact ⟨s, sentenceOf_openFact.2 (.inl hs), hn⟩

theorem ConsistentArities.openFact (h : ConsistentArities facts rules) :
    ConsistentArities (facts ++ [openFact name xs]) rules := by
  refine ⟨fun s s' hs hs' hn => ?_, ?_⟩
  · obtain ⟨u, hu, hun, hua⟩ := exists_sentence_of_openFact hmem hlen hs
    obtain ⟨u', hu', hun', hua'⟩ := exists_sentence_of_openFact hmem hlen hs'
    rw [hua, hua']
    exact h.sentences u u' hu hu' (hun ▸ hun' ▸ hn)
  · rw [functionOf_openFact]
    exact h.functions

theorem Keyword.Spelled.openFact {ks : List Keyword} (h : Spelled facts rules ks) :
    Spelled (facts ++ [openFact name xs]) rules ks := by
  refine ⟨?_, fun k hk s n hs hn ha => ?_, ?_⟩
  · rw [occurs_openFact hmem hlen]
    exact h.present
  · obtain ⟨u, hu, hun, hua⟩ := exists_sentence_of_openFact hmem hlen hs
    exact h.arity k hk u n hu (hun ▸ hn) (hua ▸ ha)
  · rw [functionOf_openFact]
    exact h.functions

theorem Keyword.Placed.openFact {ks : List Keyword} (h : Placed facts rules ks) :
    Placed (facts ++ [openFact name xs]) rules ks := by
  refine ⟨h.heads, h.bodies, ?_, ?_⟩
  · rw [occurs_openFact hmem hlen]
    exact h.turn
  · rw [occurs_openFact hmem hlen]
    exact h.action

end Sentences

section Items

variable {items : List Node} {ks : List Keyword} {name : String} {args : List Node}
  {xs : List String} (hmem : .rel name args ∈ items) (hlen : xs.length = args.length)
include hmem hlen

/-- Beside a fact of its name and length, an open fact breaks no condition. -/
theorem holds_openFact (hall : ∀ c : Condition, c.Holds items ks) (c : Condition) :
    c.Holds (items ++ [openFact name xs]) ks := by
  have hc := hall c
  have hfact : .rel name args ∈ factsOf items := List.mem_filter.2 ⟨hmem, rfl⟩
  have hfacts : factsOf (items ++ [openFact name xs]) = factsOf items ++ [openFact name xs] := by
    simp [factsOf, openFact, List.filter_append, Node.isRelation]
  have hrules : rulesOf (items ++ [openFact name xs]) = rulesOf items := by
    simp [rulesOf, openFact, List.filterMap_append, Node.rule?]
  unfold Condition.Holds
  rw [hfacts, hrules]
  cases c with
  | items =>
    intro n hn
    rcases List.mem_append.1 hn with hn | hn
    · exact hc n hn
    · rw [List.mem_singleton.1 hn]
      rfl
  | forms =>
    intro n hn hform m hm
    rcases List.mem_append.1 hn with hn | hn
    · exact hc n hn hform m hm
    · rw [List.mem_singleton.1 hn] at hm
      rcases onWalk_openFact hm with rfl | ⟨x, rfl⟩
      · -- without variables it would stand beside a fact without arguments
        intro he
        have hargs : args = [] := by
          unfold openFact at he
          generalize hvs : xs.map Node.var = vs at he
          cases he
          rw [List.map_eq_nil_iff] at hvs
          rw [hvs] at hlen
          exact List.length_eq_zero_iff.1 hlen.symm
        exact hc _ hmem (.inl rfl) _ .self (hargs ▸ .rel name)
      · rintro ⟨⟩
  | arities => exact hc.openFact hfact hlen
  | keywords => exact hc.openFact hfact hlen
  | places => exact hc.openFact hfact hlen
  | _ => exact hc

theorem isOk_openFact (h : ∃ ws, (validate items ks).outcome = .ok ws) :
    ∃ ws, (validate (items ++ [openFact name xs]) ks).outcome = .ok ws := by
  obtain ⟨p, t, g, hs⟩ := validate_isOk_iff.1 h
  have hh := HeadsNamed.of_build hs.program hs.tables
  have hh' : HeadsNamed (items ++ [openFact name xs]) := by
    intro head body hr
    rcases List.mem_append.1 hr with hr | hr
    · exact hh head body hr
    · cases List.mem_singleton.1 hr
  exact isOk_of_holds hh' (holds_openFact hmem hlen (hs.holds hh))

end Items

/-- In every accepted description each variable of a head stands in a relation of the body, and in
one of every expansion of the rule. Facts are not held to that: beside any fact the same one with
variables for its arguments is accepted as well. -/
theorem validate_binds_heads_not_facts (items : List Node) (ks : List Keyword) (ws : List Warning)
    (h : (validate items ks).outcome = .ok ws) :
    (∀ r ∈ rulesOf items, ∀ name args, r.head = .rel name args → ∀ x, Node.VarIn x args →
      (∃ q qargs, r.UsedAnywhere q qargs ∧ Node.VarIn x qargs) ∧
        ∀ e, r.Expands e → e.HasPositive x) ∧
      ∀ name args, .rel name args ∈ items → ∀ xs : List String, xs.length = args.length →
        ∃ ws', (validate (items ++ [openFact name xs]) ks).outcome = .ok ws' := by
  obtain ⟨p, t, g, hs⟩ := validate_isOk_iff.1 ⟨ws, h⟩
  refine ⟨fun r hr name args hh x hx => ?_, fun name args hmem xs hlen => ?_⟩
  · have hb := hs.binds_head hr hh hx
    exact ⟨hb.usedAnywhere, fun e he => he.binds_iff.1 (he.binds hb)⟩
  · exact isOk_openFact hmem hlen ⟨ws, h⟩

/-- A game in which a player moves whose place is marked or who holds the token. -/
def tokenGame : List Node :=
  [.rel "role" [.const "x"],
    .rule (.rel "moves" [.var "?r"]) [.rel "role" [.var "?r"],
      .disj [.rel "marked" [.fn "place" [.var "?r"]], .prop "token"]]]

/-- The player that moves is bound by the roles; a role for every player is accepted. -/
theorem tokenGame_variables :
    (∃ q qargs, Rule.UsedAnywhere ⟨.rel "moves" [.var "?r"], [.rel "role" [.var "?r"],
      .disj [.rel "marked" [.fn "place" [.var "?r"]], .prop "token"]]⟩ q qargs ∧
        Node.VarIn "?r" qargs) ∧
      ∃ ws, (validate (tokenGame ++ [openFact "role" ["?p"]]) []).outcome = .ok ws := by
  obtain ⟨hheads, hfacts⟩ := validate_binds_heads_not_facts tokenGame []
    [.undefinedSentence "marked", .undefinedSentence "token"] (by decide +kernel)
  constructor
  · exact (hheads _ (by decide) "moves" [.var "?r"] rfl "?r" ⟨_, by simp, .self⟩).1
  · exact hfacts "role" [.const "x"] (by decide) ["?p"] rfl

/-- Facts need not be ground, not even those of a keyword that only facts may define. -/
theorem openFact_accepted :
    ¬ ∀ (items : List Node) (ks : List Keyword) (ws : List Warning),
      (validate items ks).outcome = .ok ws → ∀ name args, .rel name args ∈ items →
        ∀ t ∈ args, t.isGround = true := by
  intro h
  have hx := h [.rel "role" [.var "?x"]]
    [⟨"role", 1, true, "argument: the player name", [.factsOnly]⟩] [] (by decide +kernel)
    "role" [.var "?x"] (by decide) (.var "?x") (by decide)
  cases hx

end GameRules
