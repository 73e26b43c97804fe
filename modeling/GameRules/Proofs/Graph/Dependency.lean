/-
Which names depend on which, said of the rules themselves, and the graph that records it. The graph
of some rules has exactly the edges of their dependency with its polarity, so a path of the graph
is a chain of dependencies, and the searches up and down the graph find the ends of such chains. What
they find are sets of names, which are equal if their members are.
-/
import GameRules.Graph.Closure
import GameRules.Proofs.Node.Occurrence
import Mathlib.Data.List.Sort
import Mathlib.Logic.Relation

namespace GameRules

/-! ## Sets of names -/

namespace NameSet

/-- Sets with the same members are equal. -/
theorem ext {s t : NameSet} (h : ∀ x, x ∈ s ↔ x ∈ t) : s = t := by
  obtain ⟨xs, hxs⟩ := s
  obtain ⟨ys, hys⟩ := t
  congr
  exact hxs.eq_of_mem_iff hys h

theorem size_le {s t : NameSet} (h : ∀ x ∈ s, x ∈ t) : s.size ≤ t.size :=
  (List.subperm_of_subset s.increasing.nodup h).length_le

theorem size_lt {s t : NameSet} {x : String} (h : ∀ y ∈ s, y ∈ t) (hx : x ∈ t) (hs : x ∉ s) :
    s.size < t.size := by
  have hnodup : (x :: s.toList).Nodup := List.nodup_cons.2 ⟨hs, s.increasing.nodup⟩
  refine (List.subperm_of_subset hnodup fun y hy => ?_).length_le
  rcases List.mem_cons.1 hy with rfl | hy
  · exact hx
  · exact h y hy

end NameSet

/-! ## Dependency of names -/

/-- A rule for the first name uses the second in its body, below a negation or not. -/
def Rule.Leads (r : Rule) (a b : String) (negated : Bool) : Prop :=
  r.head.name? = some a ∧ ∃ s, r.Uses s negated ∧ s.name? = some b

/-- Some rule defines a name. -/
def Defines (rules : List Rule) (a : String) : Prop := ∃ r ∈ rules, r.head.name? = some a

/-- The definition of a name uses another one. -/
def Depends (rules : List Rule) (a b : String) : Prop := ∃ r ∈ rules, ∃ negated, r.Leads a b negated

/-- The definition of a name uses another one below a negation. -/
def DependsNegatively (rules : List Rule) (a b : String) : Prop := ∃ r ∈ rules, r.Leads a b true

/-- A name is another one or comes to depend on it. -/
def Reaches (rules : List Rule) : String → String → Prop := Relation.ReflTransGen (Depends rules)

theorem DependsNegatively.depends {rules : List Rule} {a b : String}
    (h : DependsNegatively rules a b) : Depends rules a b := by
  obtain ⟨r, hr, h⟩ := h
  exact ⟨r, hr, true, h⟩

/-! ## Paths -/

/-- Along edges that hold a relation, a path is a chain of related names. -/
theorem path_iff_reflTransGen {es : List Edge} {R : String → String → Prop}
    (hR : ∀ a b, (a, b) ∈ es ↔ R a b) {a b : String} : Path es a b ↔ Relation.ReflTransGen R a b := by
  constructor
  · intro p
    induction p with
    | refl a => exact .refl
    | step he _ ih => exact .head ((hR _ _).1 he) ih
  · intro p
    induction p using Relation.ReflTransGen.head_induction_on with
    | refl => exact .refl b
    | head he _ ih => exact .step ((hR _ _).2 he) ih

theorem path_swap {es : List Edge} {a b : String} (p : Path es a b) :
    Path (es.map Prod.swap) b a := by
  induction p with
  | refl a => exact .refl a
  | @step a b c he _ ih =>
    have he' : (b, a) ∈ es.map Prod.swap := List.mem_map.2 ⟨(a, b), he, rfl⟩
    exact ih.trans (.step he' (.refl a))

theorem path_swap_iff {es : List Edge} {a b : String} :
    Path (es.map Prod.swap) a b ↔ Path es b a := by
  constructor
  · intro p
    have p' := path_swap p
    rwa [List.map_map, Prod.swap_swap_eq, List.map_id] at p'
  · exact path_swap

namespace Graph

theorem mem_dependencies {g : Graph} {names : List String} {matching : String → Bool} {x : String} :
    x ∈ g.dependencies names matching ↔ ∃ a ∈ names, matching a = true ∧ Path g.edges a x :=
  mem_closure

theorem mem_dependents {g : Graph} {names : List String} {matching : String → Bool} {x : String} :
    x ∈ g.dependents names matching ↔ ∃ a ∈ names, matching a = true ∧ Path g.edges x a := by
  unfold dependents reversed
  simp only [mem_closure, path_swap_iff]

theorem mem_dependencies_beq {g : Graph} {names : List String} {a x : String} :
    x ∈ g.dependencies names (· == a) ↔ a ∈ names ∧ Path g.edges a x := by
  rw [mem_dependencies]
  simp only [beq_iff_eq, exists_eq_left, and_left_comm]

theorem mem_dependents_beq {g : Graph} {names : List String} {a x : String} :
    x ∈ g.dependents names (· == a) ↔ a ∈ names ∧ Path g.edges x a := by
  rw [mem_dependents]
  simp only [beq_iff_eq, exists_eq_left, and_left_comm]

/-- A list that pairs some names with values has an entry for these names and no others. -/
theorem lookup_pairs {α : Type} (f : String → α) (names : List String) (n : String) :
    (names.map fun m => (m, f m)).lookup n = if n ∈ names then some (f n) else none := by
  split
  · rename_i h
    exact List.lookup_graph f h
  · rename_i h
    rw [List.lookup_eq_none_iff]
    rintro ⟨m, a⟩ hm
    obtain ⟨k, hk, hkm⟩ := List.mem_map.1 hm
    cases hkm
    simpa using fun hn : n = m => h (hn ▸ hk)

/-- A name has an entry among the ancestors exactly if it was asked for. -/
theorem lookup_ancestors (g : Graph) (names : NameSet) (n : String) :
    (g.ancestors names).lookup n =
      if n ∈ names then some (g.dependencies names.toList (· == n)) else none :=
  lookup_pairs (fun n => g.dependencies names.toList (· == n)) names.toList n

/-! ## What adding records -/

theorem mem_heads_add {g : Graph} {a b c : String} {negated : Bool} :
    c ∈ (g.add a b negated).heads ↔ c = a ∨ c ∈ g.heads :=
  NameSet.mem_insert

theorem mem_edges_add {g : Graph} {a b : String} {negated : Bool} {e : Edge} :
    e ∈ (g.add a b negated).edges ↔ e = (a, b) ∨ e ∈ g.edges :=
  mem_join

theorem mem_negative_add {g : Graph} {a b : String} {negated : Bool} {e : Edge} :
    e ∈ (g.add a b negated).negative ↔ negated = true ∧ e = (a, b) ∨ e ∈ g.negative := by
  cases negated with
  | false => simp [add]
  | true => simp [add, mem_join]

/-- A graph records, on top of another one, some definitions and dependencies and no more. -/
structure Extends (g g' : Graph) (defines : String → Prop) (leads : String → String → Bool → Prop) :
    Prop where
  heads : ∀ a, a ∈ g'.heads ↔ a ∈ g.heads ∨ defines a
  edges : ∀ a b, (a, b) ∈ g'.edges ↔ (a, b) ∈ g.edges ∨ ∃ negated, leads a b negated
  negative : ∀ a b, (a, b) ∈ g'.negative ↔ (a, b) ∈ g.negative ∨ leads a b true

theorem extends_references (head : String) (refs : List Reference) (g : Graph)
    (hg : head ∈ g.heads) :
    Extends g (refs.foldl (fun g r => g.add head r.name r.negated) g) (fun _ => False)
      (fun a b negated => a = head ∧ ⟨b, negated⟩ ∈ refs) := by
  induction refs generalizing g with
  | nil => exact ⟨by simp, by simp, by simp⟩
  | cons r refs ih =>
    obtain ⟨hh, he, hn⟩ := ih (g.add head r.name r.negated) (mem_heads_add.2 (.inl rfl))
    obtain ⟨name, negated⟩ := r
    refine ⟨fun a => ?_, fun a b => ?_, fun a b => ?_⟩
    · -- the head is there from the start, so a reference brings no new one
      rw [List.foldl_cons, hh, mem_heads_add]
      constructor
      · rintro ((rfl | h) | h)
        · exact .inl hg
        · exact .inl h
        · exact h.elim
      · rintro (h | h)
        · exact .inl (.inr h)
        · exact h.elim
    · rw [List.foldl_cons, he, mem_edges_add]
      simp only [Prod.mk.injEq, List.mem_cons, Reference.mk.injEq]
      grind
    · rw [List.foldl_cons, hn, mem_negative_add]
      simp only [Prod.mk.injEq, List.mem_cons, Reference.mk.injEq]
      grind

/-- A rule adds the name of its head and what its body uses. -/
theorem extends_addRule {r : Rule} {head : String} (h : r.head.name? = some head) (g : Graph) :
    Extends g (g.addRule head r.body) (fun a => r.head.name? = some a) r.Leads := by
  have hg : head ∈ (g.addHead head).heads := NameSet.mem_insert.2 (.inl rfl)
  obtain ⟨hh, he, hn⟩ := extends_references head (Node.referencesIn false r.body) (g.addHead head) hg
  have hleads : ∀ a b negated,
      (a = head ∧ ⟨b, negated⟩ ∈ Node.referencesIn false r.body) ↔ r.Leads a b negated := by
    intro a b negated
    rw [Rule.mem_referencesIn_body, Rule.Leads, h, Option.some.injEq, eq_comm]
  simp only [hleads] at he hn
  refine ⟨fun a => ?_, he, hn⟩
  have hadd : a ∈ (g.addHead head).heads ↔ a = head ∨ a ∈ g.heads := NameSet.mem_insert
  rw [addRule, hh, hadd, h, Option.some.injEq]
  constructor
  · rintro ((rfl | ha) | ha)
    · exact .inr rfl
    · exact .inl ha
    · exact ha.elim
  · rintro (ha | rfl)
    · exact .inl (.inr ha)
    · exact .inl (.inl rfl)

/-- One rule after another adds what all of them define and use. -/
theorem Extends.trans {g g' g'' : Graph} {defines defines' : String → Prop}
    {leads leads' : String → String → Bool → Prop} (h : Extends g g' defines leads)
    (h' : Extends g' g'' defines' leads') :
    Extends g g'' (fun a => defines a ∨ defines' a)
      (fun a b negated => leads a b negated ∨ leads' a b negated) := by
  refine ⟨fun a => ?_, fun a b => ?_, fun a b => ?_⟩
  · rw [h'.heads, h.heads, or_assoc]
  · rw [h'.edges, h.edges, or_assoc, exists_or]
  · rw [h'.negative, h.negative, or_assoc]

/-! ## The graph of rules -/

theorem foldlM_addRule_extends {rules : List Rule} {g g' : Graph}
    (h : rules.foldlM (fun g r => do return g.addRule (← r.head.getName) r.body) g = .ok g') :
    Extends g g' (Defines rules) (fun a b negated => ∃ r ∈ rules, r.Leads a b negated) := by
  induction rules generalizing g with
  | nil =>
    cases h
    exact ⟨by simp [Defines], by simp, by simp⟩
  | cons r rules ih =>
    rw [List.foldlM_cons] at h
    unfold Node.getName at h
    cases hn : r.head.name? with
    | none =>
      rw [hn] at h
      cases h
    | some head =>
      rw [hn] at h
      -- what the first rule adds, and on top of it what the others add
      have hE := (extends_addRule hn g).trans (ih h)
      unfold Defines at hE ⊢
      simpa only [List.exists_mem_cons_iff] using hE

theorem foldlM_addRule_isOk {rules : List Rule} (hheads : ∀ r ∈ rules, r.head.name? ≠ none)
    (g : Graph) :
    ∃ g', rules.foldlM (fun g r => do return g.addRule (← r.head.getName) r.body) g = .ok g' := by
  induction rules generalizing g with
  | nil => exact ⟨g, rfl⟩
  | cons r rules ih =>
    obtain ⟨head, hn⟩ := Option.ne_none_iff_exists'.1 (hheads r (by simp))
    obtain ⟨g', h⟩ := ih (fun r hr => hheads r (by simp [hr])) (g.addRule head r.body)
    refine ⟨g', ?_⟩
    rw [List.foldlM_cons]
    unfold Node.getName
    rw [hn]
    exact h

/-- Rules whose heads have names have a graph. -/
theorem ofRules_isOk {rules : List Rule} (hheads : ∀ r ∈ rules, r.head.name? ≠ none) :
    ∃ g, ofRules rules = .ok g :=
  foldlM_addRule_isOk hheads empty

section OfRules

variable {rules : List Rule} {g : Graph} (hg : ofRules rules = .ok g)
include hg

theorem mem_heads_ofRules {a : String} : a ∈ g.heads ↔ Defines rules a := by
  rw [(foldlM_addRule_extends hg).heads]
  simp [empty]

theorem mem_edges_ofRules {a b : String} : (a, b) ∈ g.edges ↔ Depends rules a b := by
  rw [(foldlM_addRule_extends hg).edges]
  simp only [empty, List.not_mem_nil, false_or, Depends]
  constructor
  · rintro ⟨negated, r, hr, h⟩
    exact ⟨r, hr, negated, h⟩
  · rintro ⟨r, hr, negated, h⟩
    exact ⟨negated, r, hr, h⟩

theorem mem_negative_ofRules {a b : String} :
    (a, b) ∈ g.negative ↔ DependsNegatively rules a b := by
  rw [(foldlM_addRule_extends hg).negative]
  simp only [empty, List.not_mem_nil, false_or, DependsNegatively]

theorem mem_targets_ofRules {b : String} : b ∈ g.targets ↔ ∃ a, Depends rules a b := by
  rw [targets, NameSet.mem_ofList, List.mem_map]
  constructor
  · rintro ⟨⟨a, b⟩, h, rfl⟩
    exact ⟨a, (mem_edges_ofRules hg).1 h⟩
  · rintro ⟨a, h⟩
    exact ⟨(a, b), (mem_edges_ofRules hg).2 h, rfl⟩

/-- A path of the graph is a chain of dependencies. -/
theorem path_ofRules_iff {a b : String} : Path g.edges a b ↔ Reaches rules a b :=
  path_iff_reflTransGen fun _ _ => mem_edges_ofRules hg

end OfRules

end Graph

end GameRules
