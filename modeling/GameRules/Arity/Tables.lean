/-
The arities of sentence names and of function names, read off sentences one after another. The two
kinds of names do not clash; a name of both kinds only earns a warning. A sentence is recorded
before the functions in its arguments, and what is recorded before a conflict stays.
-/
import GameRules.Arity.Table
import GameRules.Fault
import GameRules.Node.Occurrence

namespace GameRules

structure ArityTables where
  sentences : ArityTable
  functions : ArityTable
  deriving DecidableEq

/-- All that is read for its arity: the facts, then of each rule the head and the sentences of the
body. -/
def sentenceOccurrences (facts : List Node) (rules : List Rule) : List Node :=
  facts ++ rules.flatMap Rule.sentences

namespace ArityTables

def empty : ArityTables := ⟨.empty, .empty⟩

/-- Records the name of a sentence. -/
def addSentence (t : ArityTables) (s : Node) : Except Failure ArityTables :=
  match s.name?, s.arity? with
  | none, _ => .error (.malformed ⟨s, .name⟩)
  | some _, none => .error (.malformed ⟨s, .arity⟩)
  | some name, some arity =>
    match t.sentences.record name arity with
    | .ok table => .ok { t with sentences := table }
    | .error previous => .error (.fault (.sentenceArity s name arity previous))

/-- Records functions up to the first conflict. -/
def recordFunctions (table : ArityTable) : List Application → ArityTable × Option Fault
  | [] => (table, none)
  | f :: fs =>
    match table.record f.name f.args.length with
    | .ok table => recordFunctions table fs
    | .error previous => (table, some (.functionArity f.name f.args.length previous))

/-- Records the functions in the arguments of a sentence. -/
def addFunctions (t : ArityTables) (s : Node) : ArityTables × Option Fault :=
  let (table, fault) := recordFunctions t.functions (Node.functionsIn s.sentenceArgs)
  ({ t with functions := table }, fault)

/-- Records a sentence and then its functions. -/
def add (t : ArityTables) (s : Node) : ArityTables × Option Failure :=
  match t.addSentence s with
  | .error e => (t, some e)
  | .ok t =>
    let (t, fault) := t.addFunctions s
    (t, fault.map .fault)

/-- Records sentences up to the first failure. -/
def addAll (t : ArityTables) : List Node → ArityTables × Option Failure
  | [] => (t, none)
  | s :: ss =>
    match t.add s with
    | (t, none) => t.addAll ss
    | (t, some e) => (t, some e)

/-- The tables of facts and rules. -/
def build (facts : List Node) (rules : List Rule) : Except Failure ArityTables :=
  match empty.addAll (sentenceOccurrences facts rules) with
  | (t, none) => .ok t
  | (_, some e) => .error e

/-! ## Calls one by one -/

/-- What can be recorded on its own: the name of a sentence, the functions in its arguments, or one
after the other. -/
inductive Call where
  | sentence (s : Node)
  | functions (s : Node)
  | both (s : Node)

/-- One call, with the failure that it meets. What it has recorded until then stays. -/
def call (t : ArityTables) : Call → ArityTables × Option Failure
  | .sentence s =>
    match t.addSentence s with
    | .ok t => (t, none)
    | .error e => (t, some e)
  | .functions s =>
    let (t, fault) := t.addFunctions s
    (t, fault.map .fault)
  | .both s => t.add s

/-- The tables after some calls; a call that fails does not end the row. -/
def calls (t : ArityTables) (cs : List Call) : ArityTables := cs.foldl (fun t c => (t.call c).1) t

/-- A warning for each sentence name that is a function name too. -/
def sharedNames (t : ArityTables) : List Warning :=
  (t.sentences.names.filter (t.functions.names.contains ·)).map .sharedName

end ArityTables

end GameRules
