/-
The graph of some rules: each rule gives edges from the name of its head to the names of the
sentences in its body. A use is negative if it stands under a negation, at whatever depth. A graph is
stratified if no negative edge lies on a cycle, so that negation never comes back to itself.
-/
import GameRules.Graph.Closure
import GameRules.Run

namespace GameRules

/-! ## Edges of rules -/

/-- A use of a sentence name in a body. -/
structure Reference where
  name : String
  negated : Bool
  deriving DecidableEq

namespace Node

mutual

/-- The uses in a literal that stands under a negation or not. -/
def references : Bool → Node → List Reference
  | negated, prop name => [⟨name, negated⟩]
  | negated, rel name _ => [⟨name, negated⟩]
  | _, neg body => references true body
  | negated, disj ds => referencesIn negated ds
  | _, _ => []

def referencesIn : Bool → List Node → List Reference
  | _, [] => []
  | negated, l :: ls => references negated l ++ referencesIn negated ls

end

theorem referencesIn_eq_flatMap (negated : Bool) (ls : List Node) :
    referencesIn negated ls = ls.flatMap (references negated) := by
  induction ls with
  | nil => rfl
  | cons l ls ih => simp [referencesIn, ih]

end Node

namespace Graph

/-- Notes the head of a rule and the uses in its body. -/
def addRule (g : Graph) (head : String) (body : List Node) : Graph :=
  (Node.referencesIn false body).foldl (fun g r => g.add head r.name r.negated) (g.addHead head)

/-- The graph of rules whose heads have names. -/
def ofRules (rules : List Rule) : Except Malformed Graph :=
  rules.foldlM (fun g r => do return g.addRule (← r.head.getName) r.body) empty

/-! ## Stratified graphs -/

/-- The negative edges in the order of the search: the start whose first negative edge came last
goes first. The ends of one start are a set and have no order of their own; the order in which they
came stands for it. -/
def negativeCandidates (g : Graph) : List Edge :=
  (starts g.negative).reverse.flatMap fun a => (endsFrom g.negative a).map (a, ·)

/-- All names of the graph, and some more. -/
def allNames (g : Graph) (names : List String) : List String :=
  names ++ starts g.edges ++ g.targets.toList

/-- The first negative edge whose end comes to depend on its start. -/
def cycleFault? (g : Graph) (names : List String) : Option Fault :=
  (g.negativeCandidates.find? fun e => e.1 ∈ g.dependencies (g.allNames names) (· == e.2)).map
    fun e => .negativeCycle e.1 e.2

/-- Refuses a graph with a negative edge on a cycle, and notes that there is none. -/
def checkStratified (g : Graph) (names : List String) : Run Unit := do
  Run.reject? (g.cycleFault? names)
  Run.emit (.stratified g.size)

end Graph

/-- The graph of some rules, if it is stratified. -/
def stratifiedGraph (rules : List Rule) (names : List String) : Run Graph := do
  let g ← Graph.ofRules rules
  g.checkStratified names
  return g

end GameRules
