/-
What is checked of each rule alone. A negation in its body, also one inside disjunctions, holds a
single sentence. The rule is safe: a variable of the head, of a negated relation or of an inequality
also occurs in a positive relation of the body, and a disjunction binds what each of its branches
binds.
-/
import GameRules.Fault
import GameRules.Node.Occurrence

namespace GameRules

/-! ## The shape of negations -/

namespace Node

mutual

/-- The first negation of a literal that holds no sentence. -/
def negationFault? : Node → Option Fault
  | neg body => if body.isSentence then none else some (.negatedNonSentence body)
  | disj ds => negationFaultIn? ds
  | _ => none

def negationFaultIn? : List Node → Option Fault
  | [] => none
  | l :: ls => l.negationFault?.or (negationFaultIn? ls)

end

theorem negationFaultIn?_eq_findSome? (ls : List Node) :
    negationFaultIn? ls = ls.findSome? negationFault? := by
  induction ls with
  | nil => rfl
  | cons l ls ih =>
    rw [negationFaultIn?, ih, List.findSome?_cons]
    cases l.negationFault? <;> rfl

end Node

def Rule.negationFault? (r : Rule) : Option Fault := Node.negationFaultIn? r.body

/-! ## Bound variables -/

namespace Node

mutual

/-- The variables of a literal that something else has to bind. -/
def exposed : Node → List String
  | neg (rel _ args) => varsIn args
  | disj ds => exposedIn ds
  | distinct left right => varsIn [left, right]
  | _ => []

def exposedIn : List Node → List String
  | [] => []
  | l :: ls => l.exposed ++ exposedIn ls

end

theorem exposedIn_eq_flatMap (ls : List Node) : exposedIn ls = ls.flatMap exposed := by
  induction ls with
  | nil => rfl
  | cons l ls ih => simp [exposedIn, ih]

/-- The names that all of some lists have; of no lists, none. -/
def common : List (List String) → List String
  | [] => []
  | xs :: rest => xs.filter fun x => rest.all (·.contains x)

mutual

/-- The variables that a literal binds. -/
def bound : Node → List String
  | rel _ args => varsIn args
  | disj ds => common (boundEach ds)
  | _ => []

def boundEach : List Node → List (List String)
  | [] => []
  | l :: ls => l.bound :: boundEach ls

end

theorem boundEach_eq_map (ls : List Node) : boundEach ls = ls.map bound := by
  induction ls with
  | nil => rfl
  | cons l ls ih => simp [boundEach, ih]

end Node

namespace Rule

/-- The variables that a rule needs bound: those of the head first. -/
def exposed (r : Rule) : List String :=
  Node.varsIn r.head.sentenceArgs ++ Node.exposedIn r.body

/-- The variables that the body binds. -/
def bound (r : Rule) : List String := r.body.flatMap Node.bound

/-- The first variable that is not bound and has to be. -/
def safetyFault? (r : Rule) : Option Fault :=
  (r.exposed.find? (!r.bound.contains ·)).map (.unboundVariable r)

end Rule

end GameRules
