/-
The graph of definitions. An edge leads from a name that rules define to a name that their bodies
use; it is negative if some use stands under a negation. Edges are kept in the order in which they
first arrive.
-/
import GameRules.NameSet

namespace GameRules

/-- An edge from a defined name to a used one. -/
abbrev Edge := String × String

/-- Names that rules define, the edges between names, and those of them that are negative. -/
structure Graph where
  heads : NameSet
  edges : List Edge
  negative : List Edge
  deriving DecidableEq

namespace Graph

def empty : Graph := ⟨.empty, [], []⟩

/-- An edge joins a list once. -/
def join (e : Edge) (es : List Edge) : List Edge :=
  if e ∈ es then es else es ++ [e]

/-- Notes that rules define a name, even if their bodies use none. -/
def addHead (g : Graph) (head : String) : Graph := { g with heads := g.heads.insert head }

/-- Notes a use. A negative use marks its edge for good. -/
def add (g : Graph) (head used : String) (negated : Bool) : Graph where
  heads := g.heads.insert head
  edges := join (head, used) g.edges
  negative := if negated then join (head, used) g.negative else g.negative

theorem mem_join {e f : Edge} {es : List Edge} : f ∈ join e es ↔ f = e ∨ f ∈ es := by
  unfold join
  split
  · rename_i h
    constructor
    · exact .inr
    · rintro (rfl | hf)
      · exact h
      · exact hf
  · simp [or_comm]

theorem nodup_join {e : Edge} {es : List Edge} (h : es.Nodup) : (join e es).Nodup := by
  unfold join
  split
  · exact h
  · rename_i hn
    refine List.nodup_append.2 ⟨h, by simp, ?_⟩
    intro a ha b hb
    rw [List.mem_singleton] at hb
    rintro rfl
    exact hn (hb ▸ ha)

/-! ## Views -/

/-- The ends of the edges that leave a name, in order of arrival. -/
def endsFrom (es : List Edge) (start : String) : List String :=
  (es.filter (·.1 == start)).map (·.2)

/-- The starts of edges, in order of their first edge. -/
def starts (es : List Edge) : List String := (es.map (·.1)).eraseDups

/-- Edges gathered by their starts. -/
def gathered (es : List Edge) : List (String × List String) :=
  (starts es).map fun a => (a, endsFrom es a)

theorem mem_endsFrom {es : List Edge} {a b : String} : b ∈ endsFrom es a ↔ (a, b) ∈ es := by
  simp [endsFrom]

theorem mem_starts {es : List Edge} {a : String} : a ∈ starts es ↔ ∃ b, (a, b) ∈ es := by
  simp [starts]

/-- The names that the definition of a name uses. -/
def uses (g : Graph) (head : String) : List String := endsFrom g.edges head

/-- The names that some body uses. -/
def targets (g : Graph) : NameSet := .ofList (g.edges.map (·.2))

/-- Every edge turned round: from a used name to a defined one. -/
def reversed (g : Graph) : List Edge := g.edges.map Prod.swap

def size (g : Graph) : Nat := g.edges.length

end Graph

end GameRules
