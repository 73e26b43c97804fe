/-
Recursion in accepted descriptions. What a recursive use passes on cannot grow from round to round,
as long as the use is a conjunct or a direct disjunct of one; in a rule whose disjunctions are not
nested these are all uses. Inside a disjunction of a disjunction the restriction is lost, although
the dependency of names is not.
-/
import GameRules.Proofs.Program.Acceptance

namespace GameRules

/-! ## Names in one recursion -/

/-- Two names are in one recursion: they are the same, or each comes to depend on the other. -/
def Recurs (rules : List Rule) (a b : String) : Prop :=
  a = b ∨ Relation.TransGen (Depends rules) a b ∧ Relation.TransGen (Depends rules) b a

theorem reaches_iff {rules : List Rule} {a b : String} :
    Reaches rules a b ↔ a = b ∨ Relation.TransGen (Depends rules) a b := by
  unfold Reaches
  rw [Relation.reflTransGen_iff_eq_or_transGen, eq_comm]

theorem Recurs.reaches {rules : List Rule} {a b : String} (h : Recurs rules a b) :
    Reaches rules a b :=
  reaches_iff.2 (h.imp_right And.left)

namespace Rule

/-- A term that cannot grow in a recursion through the head of a rule: it is ground, or equal to an
argument of the head, or to one of a conjunct relation whose name does not come to depend on the
head. -/
def CannotGrow (rules : List Rule) (r : Rule) (head : String) (t : Node) : Prop :=
  t.isGround = true ∨ (∃ name args, r.head = .rel name args ∧ ∃ u ∈ args, t.same u = true) ∨
    ∃ name args, .rel name args ∈ r.body ∧ name ≠ head ∧
      ¬ Relation.TransGen (Depends rules) name head ∧ ∃ u ∈ args, t.same u = true

theorem cannotGrow_iff {rules : List Rule} {r : Rule} {head : String} {t : Node} :
    r.CannotGrow rules head t ↔ t.isGround = true ∨ r.MayPass (Reaches rules · head) t := by
  unfold CannotGrow MayPass
  simp only [reaches_iff, not_or, and_assoc, ne_eq]

/-- A relation stands in a body as a conjunct or inside disjunctions, at any depth. -/
def UsedAnywhere (r : Rule) (name : String) (args : List Node) : Prop :=
  ∃ l ∈ r.body, .rel name args ∈ l.leaves

/-- No disjunction of a body is a direct branch of another. -/
def Flat (r : Rule) : Prop := ∀ ds, .disj ds ∈ r.body → ∀ es, .disj es ∉ ds

/-- In a flat rule all uses are near. -/
theorem Flat.usedNear {r : Rule} (h : r.Flat) {name : String} {args : List Node}
    (hu : r.UsedAnywhere name args) : r.UsedNear name args := by
  obtain ⟨l, hl, he⟩ := hu
  by_cases hd : ∃ ds, l = .disj ds
  · obtain ⟨ds, rfl⟩ := hd
    obtain ⟨d, hd, he⟩ := Node.mem_leaves_disj.1 he
    -- a branch of a flat disjunction is its own only leaf
    have hflat : ∀ es, d ≠ .disj es := fun es hde => h ds hl es (hde ▸ hd)
    rw [Node.leaves_eq_singleton hflat, List.mem_singleton] at he
    exact .inr ⟨ds, hl, he ▸ hd⟩
  · rw [Node.leaves_eq_singleton fun ds hde => hd ⟨ds, hde⟩, List.mem_singleton] at he
    exact .inl (he ▸ hl)

end Rule

/-! ## Accepted recursion -/

theorem Sound.cannotGrow {items : List Node} {ks : List Keyword} {p : Program} {t : ArityTables}
    {g : Graph} (h : Sound items ks p t g) {r : Rule} (hr : r ∈ rulesOf items) {head : String}
    (hn : r.head.name? = some head) {name : String} {args : List Node} (hu : r.UsedNear name args)
    (hrec : Reaches (rulesOf items) name head) :
    ∀ u ∈ args, r.CannotGrow (rulesOf items) head u := by
  have hgrowth : Condition.growth.Holds items ks :=
    (growth_holds_iff h.program h.tables h.graph).2 h.growth
  intro u hu'
  exact Rule.cannotGrow_iff.2 (hgrowth r hr head hn name args hu hrec u hu')

/-- In every accepted description a recursive use that is a conjunct or a direct disjunct of one
passes on only terms that cannot grow; in a flat rule, every recursive use does. -/
theorem validate_cannotGrow (items : List Node) (ks : List Keyword) (ws : List Warning)
    (h : (validate items ks).outcome = .ok ws) (r : Rule) (hr : r ∈ rulesOf items) (head : String)
    (hn : r.head.name? = some head) (name : String) (args : List Node)
    (hrec : Recurs (rulesOf items) name head) :
    (r.UsedNear name args → ∀ t ∈ args, r.CannotGrow (rulesOf items) head t) ∧
      (r.Flat → r.UsedAnywhere name args → ∀ t ∈ args, r.CannotGrow (rulesOf items) head t) := by
  obtain ⟨p, t, g, hs⟩ := validate_isOk_iff.1 ⟨ws, h⟩
  have hnear : r.UsedNear name args → ∀ t ∈ args, r.CannotGrow (rulesOf items) head t :=
    fun hu => hs.cannotGrow hr hn hu hrec.reaches
  exact ⟨hnear, fun hflat hu => hnear (hflat.usedNear hu)⟩

/-- A road ends with an edge; it starts with a road before it, or with another edge to its end. -/
def roadRule : Rule :=
  ⟨.rel "road" [.var "?x", .var "?z"], [.rel "edge" [.var "?y", .var "?z"],
    .disj [.rel "road" [.var "?x", .var "?y"], .rel "edge" [.var "?x", .var "?z"]]]⟩

/-- The start of a road is passed on from the head, the stop before its end from an edge. -/
theorem roadRule_cannotGrow :
    roadRule.CannotGrow [roadRule] "road" (.var "?x") ∧
      roadRule.CannotGrow [roadRule] "road" (.var "?y") := by
  have h := (validate_cannotGrow [.rel "edge" [.const "a", .const "b"], roadRule.toNode] [] []
    (by decide +kernel) roadRule (by decide) "road" rfl "road" [.var "?x", .var "?y"] (.inl rfl)).1
    (.inr ⟨[.rel "road" [.var "?x", .var "?y"], .rel "edge" [.var "?x", .var "?z"]],
      by decide, by decide⟩)
  exact ⟨h (.var "?x") (by decide), h (.var "?y") (by decide)⟩

/-- A numeral whose predecessor is offered by a disjunction inside a disjunction. -/
def nestedGame : List Node :=
  [.rel "p" [.const "a"],
    .rule (.rel "p" [.fn "f" [.var "?x"]]) [.disj [.disj [.rel "p" [.var "?x"]]]]]

/-- Below nested disjunctions the restriction fails: this recursion is accepted, and its terms grow
with every round. -/
theorem nestedGame_grows :
    ¬ ∀ (items : List Node) (ks : List Keyword) (ws : List Warning),
      (validate items ks).outcome = .ok ws → ∀ r ∈ rulesOf items, ∀ head,
        r.head.name? = some head → ∀ name args, Recurs (rulesOf items) name head →
          r.UsedAnywhere name args → ∀ t ∈ args, r.CannotGrow (rulesOf items) head t := by
  intro h
  have hx := h nestedGame [] [] (by decide +kernel)
    ⟨.rel "p" [.fn "f" [.var "?x"]], [.disj [.disj [.rel "p" [.var "?x"]]]]⟩ (by decide) "p" rfl
    "p" [.var "?x"] (.inl rfl) ⟨_, List.mem_singleton.2 rfl, by decide⟩ (.var "?x") (by decide)
  -- the variable is not ground, the head has only a larger term, and no relation is a conjunct
  rcases hx with hg | ⟨name, args, hh, u, hu, hs⟩ | ⟨name, args, hl, -⟩
  · cases hg
  · cases hh
    rw [List.mem_singleton.1 hu] at hs
    cases hs
  · cases List.mem_singleton.1 hl

end GameRules
