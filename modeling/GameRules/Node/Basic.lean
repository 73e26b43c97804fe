/-
The trees a game description is made of. A parser hands them over unchecked: any node may stand in
any place, and so may a plain value that is no syntax at all. What a node is called and how many
parts it has are therefore partial questions.
-/
namespace GameRules

/-- A value that is no syntax: what a parser may leave where a node was meant. Fractions and other
objects are left out. -/
inductive Plain where
  | text (s : String)
  | number (n : Int)
  | truth (b : Bool)
  | nothing
  | list (elems : List Plain)

/-- A node of a game description. -/
inductive Node where
  /-- The value of a constant is text, as its type declares. -/
  | const (value : String)
  | var (name : String)
  | fn (name : String) (args : List Node)
  | prop (name : String)
  | rel (name : String) (args : List Node)
  | neg (body : Node)
  | disj (disjuncts : List Node)
  | distinct (left right : Node)
  | rule (head : Node) (body : List Node)
  | desc (items : List Node)
  | plain (value : Plain)

/-- A rule taken out of the tree: its head holds where all of its body does. -/
structure Rule where
  head : Node
  body : List Node

namespace Rule

/-- The rule as a node of the tree. -/
def toNode (r : Rule) : Node := .rule r.head r.body

end Rule

namespace Node

/-! ## What a node answers -/

/-- The word a message uses for the kind of a node. -/
def kind : Node → String
  | const _ => "Constant"
  | var _ => "Variable"
  | fn _ _ => "Function"
  | prop _ => "Proposition"
  | rel _ _ => "Relation"
  | neg _ => "Not"
  | disj _ => "Or"
  | distinct _ _ => "Distinct"
  | rule _ _ => "Rule"
  | desc _ => "Description"
  | plain (.text _) => "str"
  | plain (.number _) => "int"
  | plain (.truth _) => "bool"
  | plain .nothing => "NoneType"
  | plain (.list _) => "list"

/-- The name a node goes by, if it has one. -/
def name? : Node → Option String
  | var name => some name
  | fn name _ => some name
  | prop name => some name
  | rel name _ => some name
  | _ => none

/-- How many arguments, or for a rule how many conjuncts, a node has, if it can be asked. -/
def arity? : Node → Option Nat
  | fn _ args => some args.length
  | prop _ => some 0
  | rel _ args => some args.length
  | rule _ body => some body.length
  | _ => none

/-- The arguments of a sentence; only a relation has any. -/
def sentenceArgs : Node → List Node
  | rel _ args => args
  | _ => []

def isRelation : Node → Bool
  | rel _ _ => true
  | _ => false

/-- A sentence proper: a proposition or a relation. -/
def isSentence : Node → Bool
  | prop _ => true
  | rel _ _ => true
  | _ => false

def rule? : Node → Option Rule
  | rule head body => some ⟨head, body⟩
  | _ => none

/-- The name of a proposition. -/
def proposition? : Node → Option String
  | prop name => some name
  | _ => none

/-! ## Building nodes from text -/

/-- A value where a term is meant: text that starts with a question mark names a variable, other
text a constant, and anything else stays what it is. -/
def asTerm : Node → Node
  | plain (.text s) => if s.toList.head? = some '?' then var s else const s
  | n => n

def function (name : String) (args : List Node) : Node := fn name (args.map asTerm)

def relation (name : String) (args : List Node) : Node := rel name (args.map asTerm)

/-- A name without arguments is a proposition, with arguments a relation. -/
def sentence (name : String) : List Node → Node
  | [] => prop name
  | args => relation name args

def different (left right : Node) : Node := distinct left.asTerm right.asTerm

/-! ## Ground terms -/

mutual

/-- No variable stands in a term. Only functions have parts that count. -/
def isGround : Node → Bool
  | var _ => false
  | fn _ args => allGround args
  | _ => true

def allGround : List Node → Bool
  | [] => true
  | t :: ts => t.isGround && allGround ts

end

theorem allGround_eq_all (ts : List Node) : allGround ts = ts.all isGround := by
  induction ts with
  | nil => rfl
  | cons t ts ih => simp [allGround, ih]

end Node

end GameRules
