/-
The surface syntax of terms, literals, rules and items. A node that has none in its place is shown
by its structure.
-/
import GameRules.Node.Display

namespace GameRules

namespace Node

/-- A name with its printed arguments. -/
def applied (name : String) (args : List String) : String :=
  name ++ "(" ++ ", ".intercalate args ++ ")"

mutual

/-- A node in the place of a term. -/
def printTerm : Node → String
  | var name => name
  | const value => value
  | fn name args => applied name (printTerms args)
  | n => n.display

def printTerms : List Node → List String
  | [] => []
  | t :: ts => t.printTerm :: printTerms ts

end

theorem printTerms_eq_map (ts : List Node) : printTerms ts = ts.map printTerm := by
  induction ts with
  | nil => rfl
  | cons t ts ih => simp [printTerms, ih]

mutual

/-- A node in the place of a literal. -/
def printLiteral : Node → String
  | prop name => name
  | rel name args => applied name (printTerms args)
  | neg body => "not " ++ body.printLiteral
  | disj ds => applied "or" (printLiterals ds)
  | distinct left right => applied "distinct" [left.printTerm, right.printTerm]
  | n => n.printTerm

def printLiterals : List Node → List String
  | [] => []
  | l :: ls => l.printLiteral :: printLiterals ls

end

theorem printLiterals_eq_map (ls : List Node) : printLiterals ls = ls.map printLiteral := by
  induction ls with
  | nil => rfl
  | cons l ls ih => simp [printLiterals, ih]

end Node

/-- A rule with its body after the turnstile; an empty body leaves only the full stop. -/
def Rule.print (r : Rule) : String :=
  match r.body with
  | [] => r.head.printLiteral ++ " :- ."
  | body => r.head.printLiteral ++ " :- " ++ ", ".intercalate (body.map Node.printLiteral) ++ " ."

namespace Node

/-- A node at the top level of a description. -/
def printItem : Node → String
  | rule head body => Rule.print ⟨head, body⟩
  | prop name => (prop name).printLiteral ++ " ."
  | rel name args => (rel name args).printLiteral ++ " ."
  | neg body => (neg body).printLiteral ++ " ."
  | disj ds => (disj ds).printLiteral ++ " ."
  | distinct left right => (distinct left right).printLiteral ++ " ."
  | const value => value ++ " ."
  | var name => name ++ " ."
  | fn name args => (fn name args).printTerm ++ " ."
  | desc items => (desc items).display
  | plain p => p.display

/-- The items of a description, one to a line. -/
def printItems (items : List Node) : String :=
  "\n".intercalate (items.map printItem)

end Node

end GameRules
