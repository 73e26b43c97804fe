/-
Recursion that cannot build ever larger terms: where a body uses a relation that comes to depend on
the head, each argument is ground, or an argument of the head, or an argument of a relation of the
body that does not come to depend on it.
-/
import GameRules.Fault
import GameRules.Node.Occurrence

namespace GameRules.Rule

/-- The name comes to depend on the head, going by a table of ancestors. -/
def isCyclic (ancestors : List (String × NameSet)) (head name : String) : Bool :=
  match ancestors.lookup name with
  | some above => head ∈ above
  | none => false

/-- The arguments of the relations among some literals whose names pass a test. -/
def argsWhere (test : String → Bool) (ls : List Node) : List Node :=
  ls.flatMap fun
    | .rel name args => if test name then args else []
    | _ => []

/-- The arguments of recursive uses in one conjunct. -/
def conjunctArgs (cyclic : String → Bool) : Node → List Node
  | .disj ds => argsWhere cyclic ds
  | l => argsWhere cyclic [l]

/-- The arguments of recursive uses, in the body itself and one disjunction deep. -/
def recursiveArgs (cyclic : String → Bool) (body : List Node) : List Node :=
  body.flatMap (conjunctArgs cyclic)

/-- The terms that a recursive use may pass on: arguments of the head, and arguments of relations
in the body itself that are not recursive. -/
def passedTerms (cyclic : String → Bool) (r : Rule) : List Node :=
  r.head.sentenceArgs ++ argsWhere (!cyclic ·) r.body

/-- The term is neither ground nor one that may be passed on. -/
def mayGrow (cyclic : String → Bool) (r : Rule) (t : Node) : Bool :=
  !t.isGround && !(passedTerms cyclic r).any t.same

/-- The first argument of a recursive use that may grow. -/
def grown? (cyclic : String → Bool) (r : Rule) : Option Node :=
  (recursiveArgs cyclic r.body).find? (mayGrow cyclic r)

/-- The growth that a rule allows, going by a table of ancestors. -/
def growthFault? (ancestors : List (String × NameSet)) (r : Rule) :
    Except Malformed (Option Fault) := do
  return (r.grown? (isCyclic ancestors (← r.head.getName))).map (.termGrowth r)

/-- The first fault of this kind among some rules. -/
def growthFaultIn? (ancestors : List (String × NameSet)) (rules : List Rule) :
    Except Malformed (Option Fault) :=
  rules.findSomeM? (growthFault? ancestors)

end GameRules.Rule
