/-
Sessions with a graph: notes build it up, and questions in between are answered from what has been
noted so far.
-/
import GameRules.Graph.OfRules
import GameRules.Keyword.Use

namespace GameRules.Graph

/-! ## Notes -/

/-- What can be noted in a graph: that rules define a name, or that a definition uses another. -/
inductive Update where
  | head (name : String)
  | use (head used : String) (negated : Bool)
  deriving DecidableEq

def update (g : Graph) : Update → Graph
  | .head name => g.addHead name
  | .use head used negated => g.add head used negated

/-- The graph of some notes, made one after another. -/
def ofUpdates (us : List Update) : Graph := us.foldl update empty

/-! ## Questions -/

/-- For each used name, in order of its first use, the names whose definitions use it. -/
def users (g : Graph) : List (String × NameSet) :=
  (gathered g.reversed).map fun e => (e.1, .ofList e.2)

/-- What a graph can be asked. -/
inductive Query where
  | contents
  | uses (head : String)
  | edges
  | negative
  | targets
  | users
  | size
  | dependencies (names : List String) (matching : String → Bool)
  | dependents (names : List String) (matching : String → Bool)
  | ancestors (names : NameSet)
  | stratified (names : List String)
  | placing (names : List String) (ks : List Keyword)

/-- What a graph answers. -/
inductive Answer where
  | graph (g : Graph)
  | names (s : NameSet)
  | edges (es : List Edge)
  | entries (es : List (String × NameSet))
  | count (n : Nat)
  | verdict (r : Run Unit)

def answer (g : Graph) : Query → Answer
  | .contents => .graph g
  | .uses head => .names (.ofList (g.uses head))
  | .edges => .edges g.edges
  | .negative => .edges g.negative
  | .targets => .names g.targets
  | .users => .entries g.users
  | .size => .count g.size
  | .dependencies names matching => .names (g.dependencies names matching)
  | .dependents names matching => .names (g.dependents names matching)
  | .ancestors names => .entries (g.ancestors names)
  | .stratified names => .verdict (g.checkStratified names)
  | .placing names ks => .verdict (Keyword.checkPlacing g names ks)

/-! ## Sessions -/

/-- A step of a session. -/
inductive Call where
  | note (u : Update)
  | ask (q : Query)

/-- One step: a note is answered with the graph that it leads to. -/
def call (g : Graph) : Call → Graph × Answer
  | .note u => (g.update u, .graph (g.update u))
  | .ask q => (g, g.answer q)

/-- The graph at the end of a session, and the answers on the way. -/
def session (g : Graph) : List Call → Graph × List Answer
  | [] => (g, [])
  | c :: cs =>
    let (g, a) := g.call c
    let (g, as) := g.session cs
    (g, a :: as)

end GameRules.Graph
