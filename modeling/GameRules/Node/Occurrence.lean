/-
What occurs in a tree: the sentences of a literal, of a body and of a rule, and the variables and
functions of terms. Everything is listed from left to right and as often as it occurs.
-/
import GameRules.Node.Equality

namespace GameRules

/-- A function symbol with its arguments. -/
structure Application where
  name : String
  args : List Node
  deriving DecidableEq

/-- The application as a term. -/
def Application.toNode (f : Application) : Node := .fn f.name f.args

namespace Node

/-! ## Variables and functions of terms -/

mutual

/-- The names of the variables of a term. -/
def vars : Node → List String
  | var name => [name]
  | fn _ args => varsIn args
  | _ => []

def varsIn : List Node → List String
  | [] => []
  | t :: ts => t.vars ++ varsIn ts

end

theorem varsIn_eq_flatMap (ts : List Node) : varsIn ts = ts.flatMap vars := by
  induction ts with
  | nil => rfl
  | cons t ts ih => simp [varsIn, ih]

mutual

/-- The functions of a term, an outer one before those in its arguments. -/
def functions : Node → List Application
  | fn name args => ⟨name, args⟩ :: functionsIn args
  | _ => []

def functionsIn : List Node → List Application
  | [] => []
  | t :: ts => t.functions ++ functionsIn ts

end

theorem functionsIn_eq_flatMap (ts : List Node) : functionsIn ts = ts.flatMap functions := by
  induction ts with
  | nil => rfl
  | cons t ts ih => simp [functionsIn, ih]

/-! ## Sentences of literals -/

mutual

/-- The sentences of a literal, under negations and in disjunctions too. -/
def sentences : Node → List Node
  | prop name => [prop name]
  | rel name args => [rel name args]
  | neg body => body.sentences
  | disj ds => sentencesIn ds
  | _ => []

def sentencesIn : List Node → List Node
  | [] => []
  | l :: ls => l.sentences ++ sentencesIn ls

end

theorem sentencesIn_eq_flatMap (ls : List Node) : sentencesIn ls = ls.flatMap sentences := by
  induction ls with
  | nil => rfl
  | cons l ls ih => simp [sentencesIn, ih]

end Node

namespace Rule

/-- The sentences of the body. -/
def bodySentences (r : Rule) : List Node := Node.sentencesIn r.body

/-- The head, whatever it is, and the sentences of the body. -/
def sentences (r : Rule) : List Node := r.head :: r.bodySentences

end Rule

end GameRules
