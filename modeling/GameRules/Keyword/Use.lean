/-
Keywords in use. As sentence names: the required ones occur, each has its own arity, and none of them
names a function. In the graph of definitions: which may be defined, which may be used, and which may
not come to depend on the turn or on the moves.
-/
import GameRules.Arity.Table
import GameRules.Graph.Closure
import GameRules.Run

namespace GameRules.Keyword

/-! ## Sentence names -/

/-- What is wrong with the use of a keyword as a sentence name. -/
def sentenceFault? (sentences : ArityTable) (k : Keyword) : Option Fault :=
  match sentences.arity? k.name with
  | none => if k.required then some (.missingKeyword k) else none
  | some arity => if arity = k.arity then none else some (.keywordArity k)

/-- The first function name that is a keyword. -/
def functionFault? (functions : ArityTable) (ks : List Keyword) : Option Fault :=
  (functions.names.find? (· ∈ names ks)).map .keywordAsFunction

/-- The first fault of a table of keywords, sentence names before function names. -/
def arityFault? (sentences functions : ArityTable) (ks : List Keyword) : Option Fault :=
  (ks.findSome? (sentenceFault? sentences)).or (functionFault? functions ks)

/-! ## The graph of definitions -/

/-- A keyword that rules define and must not. -/
def headFault? (g : Graph) (ks : List Keyword) : Option Fault :=
  (((placed .factsOnly ks).find? (· ∈ g.heads)).map .ruleForFacts).or
    (((placed .bodyOnly ks).find? (· ∈ g.heads)).map .keywordInHead)

/-- The least keyword that bodies use and must not. -/
def bodyFault? (g : Graph) (ks : List Keyword) : Option Fault :=
  (g.targets.toList.find? ((placed .headOnly ks).contains ·)).map .keywordInBody

/-- The names that change from turn to turn or come to depend on one that does. -/
def turnDependents (g : Graph) (names : List String) (ks : List Keyword) : NameSet :=
  g.dependents names ((placed .turnMarker ks).contains ·)

/-- The names of moves and all that come to depend on one. -/
def actionDependents (g : Graph) (names : List String) (ks : List Keyword) : NameSet :=
  ((placed .action ks).map fun a => g.dependents names (· == a)).foldl .union .empty

def turnFault? (g : Graph) (names : List String) (ks : List Keyword) : Option Fault :=
  ((placed .turnIndependent ks).find? (· ∈ turnDependents g names ks)).map
    (.turnDependence · (placed .turnMarker ks))

def actionFault? (g : Graph) (names : List String) (ks : List Keyword) : Option Fault :=
  ((placed .actionIndependent ks).find? (· ∈ actionDependents g names ks)).map
    (.actionDependence · (placed .action ks))

/-- Places first, then dependence. What depends on the turn is noted in between. -/
def checkPlacing (g : Graph) (names : List String) (ks : List Keyword) : Run Unit := do
  Run.reject? ((headFault? g ks).or (bodyFault? g ks))
  Run.emit (.turnDependent (turnDependents g names ks).toList)
  Run.reject? ((turnFault? g names ks).or (actionFault? g names ks))

end GameRules.Keyword
