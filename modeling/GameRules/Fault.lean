/-
Why a description is refused, and what may be odd about one that is not. Each cause is a
constructor; its code, its wording, its subject and its notes are read off it here and nowhere else.
-/
import GameRules.Diagnostic
import GameRules.Keyword.Basic
import GameRules.Node.Printer

namespace GameRules

/-! ## Fatal findings -/

inductive Fault where
  /-- A parenthesis closes on a line what none has opened. -/
  | extraClose (line : Nat) (text : String)
  /-- The last parenthesis left open stands on a line. -/
  | extraOpen (line : Nat)
  /-- An item is no relation, rule or proposition. -/
  | strayItem (item : Node)
  /-- A function has no arguments. -/
  | emptyFunction (name : String)
  /-- A relation has no arguments. -/
  | emptyRelation (name : String)
  /-- A rule has no body. -/
  | emptyRule (head : Node)
  /-- A negation holds more than a sentence. -/
  | negatedNonSentence (body : Node)
  /-- A sentence name had another arity before. -/
  | sentenceArity (sentence : Node) (name : String) (arity previous : Int)
  /-- A function name had another arity before. -/
  | functionArity (name : String) (arity previous : Int)
  /-- A required keyword does not occur. -/
  | missingKeyword (k : Keyword)
  /-- A keyword occurs with another arity than its own. -/
  | keywordArity (k : Keyword)
  /-- A keyword names a function. -/
  | keywordAsFunction (name : String)
  /-- A variable that needs a positive relation in the body has none. -/
  | unboundVariable (rule : Rule) (name : String)
  /-- A negative edge lies on a cycle. -/
  | negativeCycle (start stop : String)
  /-- A rule defines a keyword that only facts may define. -/
  | ruleForFacts (name : String)
  /-- A rule defines a keyword that only bodies may use. -/
  | keywordInHead (name : String)
  /-- A body uses a keyword that only heads may define. -/
  | keywordInBody (name : String)
  /-- A keyword depends on one of the names that change from turn to turn. -/
  | turnDependence (name : String) (markers : List String)
  /-- A keyword depends on one of the names of moves. -/
  | actionDependence (name : String) (actions : List String)
  /-- A recursive use has an argument that may grow. -/
  | termGrowth (rule : Rule) (term : Node)
  deriving DecidableEq

namespace Fault

def code : Fault → String
  | extraClose _ _ => "E010"
  | extraOpen _ => "E011"
  | strayItem _ => "E100"
  | emptyFunction _ => "E110"
  | emptyRelation _ => "E111"
  | emptyRule _ => "E112"
  | negatedNonSentence _ => "E120"
  | sentenceArity _ _ _ _ => "E130"
  | functionArity _ _ _ => "E131"
  | missingKeyword _ => "E140"
  | keywordArity _ => "E141"
  | keywordAsFunction _ => "E142"
  | unboundVariable _ _ => "E150"
  | negativeCycle _ _ => "E160"
  | ruleForFacts _ => "E170"
  | keywordInHead _ => "E171"
  | keywordInBody _ => "E172"
  | turnDependence _ _ => "E173"
  | actionDependence _ _ => "E174"
  | termGrowth _ _ => "E180"

/-- A keyword may not depend on any of the names that are offered. -/
def dependenceMessage (name offered : String) : String :=
  s!"A {name} relation should never have a dependency on a {offered} sentence."

/-- The names that the message offers as alternatives, if it is to offer some. -/
def offered? : Fault → Option (List String)
  | turnDependence _ markers => some markers
  | actionDependence _ actions => some actions
  | _ => none

/-- The message, if there is one: where it is to offer alternatives, it needs some. -/
def message? : Fault → Option String
  | extraClose line text => some s!"Extra close parens encountered at line {line}\nLine: {text}"
  | extraOpen line => some s!"Extra open parens encountered, starting at line {line}"
  | strayItem item =>
    some (s!"The rules include an object of type {item.kind}. Only relations and rules are expected. " ++
      s!"The object is: {item.printItem}")
  | emptyFunction name =>
    some ((Node.fn name []).printTerm ++ " is written as a zero-arity function; it should be written " ++
      "as a constant instead. (Try dropping the parentheses.)")
  | emptyRelation name =>
    some ((Node.rel name []).printLiteral ++ " is written as a zero-arity relation; it should be " ++
      "written as a proposition instead. (Try dropping the parentheses.)")
  | emptyRule head =>
    some ((Rule.mk head []).print ++ " is written as a zero-arity rule; if it's always supposed to be " ++
      "true, it should be written as a relation instead. Otherwise, check your parentheses.")
  | negatedNonSentence body =>
    some (s!"The negation {(Node.neg body).printLiteral} contains a literal {body.printLiteral} " ++
      "that is not a sentence. Only a single sentence is allowed inside a negation.")
  | sentenceArity sentence name arity previous =>
    some (s!"The sentence with the name {name} appears with two different arities, " ++
      s!"{arity} and {previous}: {sentence.printLiteral}")
  | functionArity name arity previous =>
    some (s!"The function with the name {name} appears with two different arities, " ++
      s!"{arity} and {previous}")
  | missingKeyword k =>
    some (s!"No {k.name} " ++ (if k.arity = 0 then "proposition" else "relations") ++
      " found in the game description")
  | keywordArity k =>
    some (if k.arity = 0 then s!"'{k.name}' should be a proposition, not a relation"
      else s!"The {k.name} relation should have arity {k.arity} ({k.hint})")
  | keywordAsFunction name =>
    some (s!"The keyword {name} is being used as a function. " ++
      "It should only be used as the name of a sentence.")
  | unboundVariable rule name =>
    some (s!"Unsafe rule {rule.print}: Variable {name} is not defined " ++
      "in a positive relation in the rule's body")
  | negativeCycle start stop =>
    some s!"There is a negative edge from {start} to {stop} in a cycle in the dependency graph"
  | ruleForFacts name =>
    some s!"The {name} relation should be defined by ground statements, not by rules."
  | keywordInHead name => some s!"The {name} relation should never be in the head of a rule."
  | keywordInBody name => some s!"The {name} relation should never be in the body of a rule."
  | turnDependence name markers => (Keyword.alternatives? markers).map (dependenceMessage name)
  | actionDependence name actions => (Keyword.alternatives? actions).map (dependenceMessage name)
  | termGrowth rule term =>
    some s!"Recursion-function restriction violated in rule {rule.print}, for term {term.printTerm}"

/-- The message. The empty text stands for the failure to offer alternatives where there is no last
name; a fault that lacks a message for that reason is never found. -/
def message (f : Fault) : String := f.message?.getD ""

def subject : Fault → Subject
  | extraClose line _ => .line line
  | extraOpen line => .line line
  | strayItem item => .node item
  | emptyFunction name => .node (.fn name [])
  | emptyRelation name => .node (.rel name [])
  | emptyRule head => .node (.rule head [])
  | negatedNonSentence body => .node (.neg body)
  | sentenceArity _ name _ _ => .name name
  | functionArity name _ _ => .name name
  | missingKeyword k => .name k.name
  | keywordArity k => .name k.name
  | keywordAsFunction name => .name name
  | unboundVariable _ name => .node (.var name)
  | negativeCycle start stop => .edge start stop
  | ruleForFacts name => .name name
  | keywordInHead name => .name name
  | keywordInBody name => .name name
  | turnDependence name _ => .name name
  | actionDependence name _ => .name name
  | termGrowth _ term => .node term

/-- Only a cycle needs explaining. -/
def notes : Fault → List Note
  | negativeCycle start stop =>
    [⟨s!"{stop} depends on {start}, and {start} depends negatively on {stop}", .nothing⟩]
  | _ => []

def diagnostic (f : Fault) : Diagnostic := .error f.code f.message f.subject f.notes

end Fault

/-! ## Warnings -/

inductive Warning where
  /-- A proposition stands alone among the items. -/
  | bareProposition (name : String)
  /-- A name is both a sentence's and a function's. -/
  | sharedName (name : String)
  /-- A body uses a name that nothing defines. -/
  | undefinedSentence (name : String)
  deriving DecidableEq

namespace Warning

def code : Warning → String
  | bareProposition _ => "W100"
  | sharedName _ => "W130"
  | undefinedSentence _ => "W190"

def message : Warning → String
  | bareProposition name =>
    s!"The rules contain the proposition {name}, which may not be intended."
  | sharedName name =>
    s!"The constant {name} is used as both a sentence name and as a function name. " ++
      "This is probably unintended. Are you using 'true' correctly?"
  | undefinedSentence name =>
    s!"A rule references the sentence name {name}, but no sentence with that name is defined"

def name : Warning → String
  | bareProposition name => name
  | sharedName name => name
  | undefinedSentence name => name

def diagnostic (w : Warning) : Diagnostic := .warning w.code w.message (.name w.name)

end Warning

/-! ## Nodes that lack what is asked of them -/

/-- What a node may be asked for. -/
inductive Attribute where
  | name
  | arity
  deriving DecidableEq

def Attribute.label : Attribute → String
  | name => "name"
  | arity => "arity"

/-- A node stands where a sentence was meant, and lacks what every sentence has. -/
structure Malformed where
  node : Node
  missing : Attribute
  deriving DecidableEq

def Malformed.message (m : Malformed) : String :=
  s!"'{m.node.kind}' object has no attribute '{m.missing.label}'"

/-- The name of a node that is taken for a sentence. -/
def Node.getName (n : Node) : Except Malformed String :=
  match n.name? with
  | some name => .ok name
  | none => .error ⟨n, .name⟩

/-- How a check ends if it does not end well. -/
inductive Failure where
  | fault (f : Fault)
  | malformed (m : Malformed)
  deriving DecidableEq

end GameRules
