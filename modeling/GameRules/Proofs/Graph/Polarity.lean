/-
The polarity of edges, counted. Above each occurrence of a sentence in a body stand some negations. An
edge is negative if there is one above some occurrence, and one could also ask for an odd number of
them. The two ways differ on a negated negation. They agree once every negation holds a single
sentence, because then no occurrence has two negations above it.
-/
import GameRules.Proofs.Graph.Dependency
import GameRules.Rule.Safety

namespace GameRules

/-! ## Negations above an occurrence -/

namespace Node

/-- A sentence stands in a literal, below negations and disjunctions only; the number is that of the
negations above it. -/
inductive OccursUnder (s : Node) : Nat → Node → Prop where
  | self : s.isSentence = true → OccursUnder s 0 s
  | neg {n : Nat} {body : Node} : OccursUnder s n body → OccursUnder s (n + 1) (neg body)
  | disj {n : Nat} {d : Node} {ds : List Node} :
    d ∈ ds → OccursUnder s n d → OccursUnder s n (disj ds)

theorem occursUnder_neg {s body : Node} {n : Nat} :
    OccursUnder s n (neg body) ↔ ∃ k, OccursUnder s k body ∧ n = k + 1 := by
  constructor
  · intro h
    cases h with
    | self h => cases h
    | neg h => exact ⟨_, h, rfl⟩
  · rintro ⟨k, h, rfl⟩
    exact .neg h

theorem occursUnder_disj {s : Node} {ds : List Node} {n : Nat} :
    OccursUnder s n (disj ds) ↔ ∃ d ∈ ds, OccursUnder s n d := by
  constructor
  · intro h
    cases h with
    | self h => cases h
    | disj hd h => exact ⟨_, hd, h⟩
  · rintro ⟨d, hd, h⟩
    exact .disj hd h

/-- Above a sentence that is the whole literal there is no negation. -/
theorem occursUnder_of_isSentence {s l : Node} {n : Nat} (hl : l.isSentence = true) :
    OccursUnder s n l ↔ s = l ∧ n = 0 := by
  constructor
  · intro h
    cases h with
    | self _ => exact ⟨rfl, rfl⟩
    | neg _ => cases hl
    | disj _ _ => cases hl
  · rintro ⟨rfl, rfl⟩
    exact .self hl

/-- The flag of an occurrence tells whether the number is positive. -/
theorem occurs_iff_under {s l : Node} {negated : Bool} :
    Occurs s negated l ↔ ∃ n, OccursUnder s n l ∧ negated = decide (1 ≤ n) := by
  constructor
  · intro h
    induction h with
    | self h => exact ⟨0, .self h, rfl⟩
    | neg _ ih =>
      obtain ⟨n, h, -⟩ := ih
      exact ⟨n + 1, .neg h, by simp⟩
    | disj hd _ ih =>
      obtain ⟨n, h, hn⟩ := ih
      exact ⟨n, .disj hd h, hn⟩
  · rintro ⟨n, h, rfl⟩
    induction h with
    | self h => exact .self h
    | @neg n body _ ih =>
      have hflag : decide (1 ≤ n + 1) = true := by simp
      rw [hflag]
      exact .neg ih
    | disj hd _ ih => exact .disj hd ih

/-- Where each negation holds a single sentence, no occurrence has two negations above it. -/
theorem OccursUnder.le_one {s l : Node} {n : Nat} (h : OccursUnder s n l)
    (hl : l.negationFault? = none) : n ≤ 1 := by
  induction h with
  | self _ => exact Nat.zero_le 1
  | @neg n body h _ =>
    rw [negationFault?] at hl
    split at hl
    · rename_i hbody
      obtain ⟨-, rfl⟩ := (occursUnder_of_isSentence hbody).1 h
      exact Nat.le_refl 1
    · cases hl
  | @disj n d ds hd _ ih =>
    rw [negationFault?, negationFaultIn?_eq_findSome?, List.findSome?_eq_none_iff] at hl
    exact ih (hl d hd)

end Node

/-! ## Edges -/

/-- A rule for the first name uses the second in its body, below so many negations. -/
def Rule.LeadsUnder (r : Rule) (a b : String) (n : Nat) : Prop :=
  r.head.name? = some a ∧ ∃ l ∈ r.body, ∃ s, Node.OccursUnder s n l ∧ s.name? = some b

/-- The definition of a name uses another one below so many negations. -/
def DependsUnder (rules : List Rule) (a b : String) (n : Nat) : Prop :=
  ∃ r ∈ rules, r.LeadsUnder a b n

theorem Rule.leads_iff_under {r : Rule} {a b : String} {negated : Bool} :
    r.Leads a b negated ↔ ∃ n, r.LeadsUnder a b n ∧ negated = decide (1 ≤ n) := by
  unfold Leads Uses LeadsUnder
  simp only [Node.occurs_iff_under]
  constructor
  · rintro ⟨ha, s, ⟨l, hl, n, hs, hn⟩, hb⟩
    exact ⟨n, ⟨ha, l, hl, s, hs, hb⟩, hn⟩
  · rintro ⟨n, ⟨ha, l, hl, s, hs, hb⟩, hn⟩
    exact ⟨ha, s, ⟨l, hl, n, hs, hn⟩, hb⟩

theorem depends_iff_under {rules : List Rule} {a b : String} :
    Depends rules a b ↔ ∃ n, DependsUnder rules a b n := by
  unfold Depends DependsUnder
  simp only [Rule.leads_iff_under]
  constructor
  · rintro ⟨r, hr, negated, n, h, -⟩
    exact ⟨n, r, hr, h⟩
  · rintro ⟨n, r, hr, h⟩
    exact ⟨r, hr, _, n, h, rfl⟩

theorem dependsNegatively_iff_under {rules : List Rule} {a b : String} :
    DependsNegatively rules a b ↔ ∃ n, DependsUnder rules a b n ∧ 1 ≤ n := by
  unfold DependsNegatively DependsUnder
  simp only [Rule.leads_iff_under, eq_comm (a := true), decide_eq_true_eq]
  constructor
  · rintro ⟨r, hr, n, h, hn⟩
    exact ⟨n, ⟨r, hr, h⟩, hn⟩
  · rintro ⟨n, ⟨r, hr, h⟩, hn⟩
    exact ⟨r, hr, n, h, hn⟩

namespace Graph

/-- The graph of rules whose heads have names holds their uses exactly: an edge for each use, a negative
one if a use has a negation above it, and as heads the names that rules define. If every negation in
the bodies holds a single sentence, no use has two negations above it, so the negative edges are also
those of the uses below an odd number of negations. -/
theorem ofRules_polarity (rules : List Rule) (hheads : ∀ r ∈ rules, r.head.name? ≠ none) :
    ∃ g, ofRules rules = .ok g ∧
      (∀ a b, (a, b) ∈ g.edges ↔ ∃ n, DependsUnder rules a b n) ∧
      (∀ a b, (a, b) ∈ g.negative ↔ ∃ n, DependsUnder rules a b n ∧ 1 ≤ n) ∧
      (∀ a, a ∈ g.heads ↔ ∃ r ∈ rules, r.head.name? = some a) ∧
      ((∀ r ∈ rules, ∀ l ∈ r.body, l.negationFault? = none) →
        (∀ r ∈ rules, ∀ l ∈ r.body, ∀ s n, Node.OccursUnder s n l → n ≤ 1) ∧
        ∀ a b, (a, b) ∈ g.negative ↔ ∃ n, DependsUnder rules a b n ∧ n % 2 = 1) := by
  obtain ⟨g, hg⟩ := ofRules_isOk hheads
  have hnegative : ∀ a b, (a, b) ∈ g.negative ↔ ∃ n, DependsUnder rules a b n ∧ 1 ≤ n := fun a b =>
    (mem_negative_ofRules hg).trans dependsNegatively_iff_under
  refine ⟨g, hg, fun a b => (mem_edges_ofRules hg).trans depends_iff_under, hnegative,
    fun a => mem_heads_ofRules hg, fun hshape => ?_⟩
  have hone : ∀ r ∈ rules, ∀ l ∈ r.body, ∀ s n, Node.OccursUnder s n l → n ≤ 1 :=
    fun r hr l hl s n h => h.le_one (hshape r hr l hl)
  refine ⟨hone, fun a b => ?_⟩
  rw [hnegative]
  refine exists_congr fun n => and_congr_right fun huse => ?_
  obtain ⟨r, hr, -, l, hl, s, hs, -⟩ := huse
  have hn := hone r hr l hl s n hs
  omega

/-- A negation inside a disjunction, and a rule with nothing in its body. -/
def drawRules : List Rule :=
  [⟨.prop "win", [.disj [.prop "draw", .neg (.rel "lose" [.var "?x"])]]⟩, ⟨.prop "draw", []⟩]

/-- A negation of a negation. -/
def doubtRules : List Rule := [⟨.prop "win", [.neg (.disj [.neg (.prop "lose")])]⟩]

/-- With single sentences below negations the edge is negative either way; below two negations it is
negative, though their number is even. -/
theorem polarity_of_two_games :
    (∃ g, ofRules drawRules = .ok g ∧ "draw" ∈ g.heads ∧ ("win", "lose") ∈ g.negative ∧
      ∃ n, DependsUnder drawRules "win" "lose" n ∧ n % 2 = 1) ∧
    ∃ g, ofRules doubtRules = .ok g ∧ ("win", "lose") ∈ g.negative ∧
      ¬ ∃ n, DependsUnder doubtRules "win" "lose" n ∧ n % 2 = 1 := by
  constructor
  · obtain ⟨g, hg, -, hnegative, hheads, hshape⟩ := ofRules_polarity drawRules (by decide)
    have hodd := (hshape (by simp [drawRules, Node.negationFault?, Node.negationFaultIn?,
      Node.isSentence])).2 "win" "lose"
    have huse : DependsUnder drawRules "win" "lose" 1 :=
      ⟨_, .head _, rfl, _, .head _, .rel "lose" [.var "?x"], .disj (by simp) (.neg (.self rfl)), rfl⟩
    have hmem := (hnegative _ _).2 ⟨1, huse, Nat.le_refl 1⟩
    exact ⟨g, hg, (hheads "draw").2 ⟨⟨.prop "draw", []⟩, by simp [drawRules], rfl⟩, hmem, hodd.1 hmem⟩
  · obtain ⟨g, hg, -, hnegative, -, -⟩ := ofRules_polarity doubtRules (by decide)
    have huse : ∀ n, DependsUnder doubtRules "win" "lose" n ↔ n = 2 := by
      intro n
      have hlose : ∀ s k, Node.OccursUnder s k (.prop "lose") ↔ s = .prop "lose" ∧ k = 0 :=
        fun s k => Node.occursUnder_of_isSentence rfl
      simp [DependsUnder, Rule.LeadsUnder, doubtRules, Node.occursUnder_neg, Node.occursUnder_disj,
        hlose, Node.name?]
    refine ⟨g, hg, (hnegative _ _).2 ⟨2, (huse 2).2 rfl, by decide⟩, ?_⟩
    rintro ⟨n, hn, hodd⟩
    rw [(huse n).1 hn] at hodd
    cases hodd

end Graph

end GameRules
