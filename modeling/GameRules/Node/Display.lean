/-
The structural text of a node: its kind and its named parts, all the way down. It is what a message
shows where a node has no surface syntax.
-/
import GameRules.Node.Basic
import GameRules.Text.Quoted

namespace GameRules

open Text

namespace Plain

mutual

def display : Plain → String
  | text s => quoted s
  | number n => toString n
  | truth b => if b then "True" else "False"
  | nothing => "None"
  | list elems => bracketed (displayAll elems)

def displayAll : List Plain → List String
  | [] => []
  | p :: ps => p.display :: displayAll ps

end

end Plain

namespace Node

mutual

def display : Node → String
  | const value => "Constant(value=" ++ quoted value ++ ")"
  | var name => "Variable(name=" ++ quoted name ++ ")"
  | fn name args => "Function(name=" ++ quoted name ++ ", args=" ++ grouped (displayAll args) ++ ")"
  | prop name => "Proposition(name=" ++ quoted name ++ ")"
  | rel name args => "Relation(name=" ++ quoted name ++ ", args=" ++ grouped (displayAll args) ++ ")"
  | neg body => "Not(body=" ++ body.display ++ ")"
  | disj ds => "Or(disjuncts=" ++ grouped (displayAll ds) ++ ")"
  | distinct left right => "Distinct(left=" ++ left.display ++ ", right=" ++ right.display ++ ")"
  | rule head body => "Rule(head=" ++ head.display ++ ", body=" ++ grouped (displayAll body) ++ ")"
  | desc items => "Description(items=" ++ grouped (displayAll items) ++ ")"
  | plain p => p.display

def displayAll : List Node → List String
  | [] => []
  | n :: ns => n.display :: displayAll ns

end

end Node

end GameRules
