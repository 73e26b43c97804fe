/-
The walk over a tree, parents before children. It has two gaits: in the place of a term only
functions are entered, everywhere else each kind of node is entered by its own parts. The walk finds
the empty forms: a function or relation written with parentheses and nothing in them, or a rule
without a body. Each has a plainer form that was meant.
-/
import GameRules.Fault

namespace GameRules

/-! ## The walk -/

/-- One step of the walk: a node met as such, or met in the place of a term. -/
inductive Visit where
  | node (n : Node)
  | term (t : Node)

namespace Visit

/-- The node that is met, in whichever place. -/
def met : Visit → Node
  | node n => n
  | term t => t

/-- The node, if it is met in the place of a term. -/
def term? : Visit → Option Node
  | node _ => none
  | term t => some t

end Visit

namespace Node

mutual

/-- The walk from a node in the place of a term. -/
def walkTerm : Node → List Visit
  | fn name args => .term (fn name args) :: walkTerms args
  | t => [.term t]

def walkTerms : List Node → List Visit
  | [] => []
  | t :: ts => t.walkTerm ++ walkTerms ts

end

theorem walkTerms_eq_flatMap (ts : List Node) : walkTerms ts = ts.flatMap walkTerm := by
  induction ts with
  | nil => rfl
  | cons t ts ih => simp [walkTerms, ih]

mutual

/-- The walk from a node. Constants, variables and functions are terms wherever they stand. -/
def walk : Node → List Visit
  | const value => (const value).walkTerm
  | var name => (var name).walkTerm
  | fn name args => (fn name args).walkTerm
  | prop name => [.node (prop name)]
  | rel name args => .node (rel name args) :: walkTerms args
  | neg body => .node (neg body) :: body.walk
  | disj ds => .node (disj ds) :: walkAll ds
  | distinct left right => .node (distinct left right) :: (left.walkTerm ++ right.walkTerm)
  | rule head body => .node (rule head body) :: (head.walk ++ walkAll body)
  | desc items => .node (desc items) :: walkAll items
  | plain p => [.node (plain p)]

def walkAll : List Node → List Visit
  | [] => []
  | n :: ns => n.walk ++ walkAll ns

end

theorem walkAll_eq_flatMap (ns : List Node) : walkAll ns = ns.flatMap walk := by
  induction ns with
  | nil => rfl
  | cons n ns ih => simp [walkAll, ih]

/-! ## Empty forms -/

/-- What is wrong with a node that is an empty form. -/
def emptyForm? : Node → Option Fault
  | fn name [] => some (.emptyFunction name)
  | rel name [] => some (.emptyRelation name)
  | rule head [] => some (.emptyRule head)
  | _ => none

/-- The first empty form on the walk over some trees. -/
def emptyFormFault? (roots : List Node) : Option Fault :=
  (walkAll roots).findSome? (·.met.emptyForm?)

end Node

end GameRules
