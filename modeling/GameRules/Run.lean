/-
Runs: the outcome of a check together with the events on the way. A failure ends a run and keeps
the events that came before it.
-/
import GameRules.Fault

namespace GameRules

/-! ## Events -/

inductive Level where
  | debug
  | info
  | warning
  deriving DecidableEq

/-- The part of the analysis that an event comes from. -/
inductive Channel where
  | validation
  | dependency
  | keywords
  deriving DecidableEq

inductive Event where
  /-- The arity tables hold so many sentence and function names. -/
  | tablesBuilt (sentences functions : Nat)
  /-- A graph with so many edges has no negative edge on a cycle. -/
  | stratified (edges : Nat)
  /-- The names that change from turn to turn, or depend on one that does. -/
  | turnDependent (names : List String)
  /-- A fault ends the analysis. -/
  | rejected (f : Fault)
  /-- So many facts and rules pass, with so many warnings. -/
  | accepted (facts rules warnings : Nat)
  deriving DecidableEq

namespace Event

def level : Event → Level
  | tablesBuilt _ _ => .debug
  | stratified _ => .debug
  | turnDependent _ => .debug
  | rejected _ => .warning
  | accepted _ _ _ => .info

def channel : Event → Channel
  | tablesBuilt _ _ => .validation
  | stratified _ => .dependency
  | turnDependent _ => .keywords
  | rejected _ => .validation
  | accepted _ _ _ => .validation

def message : Event → String
  | tablesBuilt sentences functions =>
    s!"arity tables: {sentences} sentence names, {functions} function names"
  | stratified edges => s!"dependency graph is stratified ({edges} edges)"
  | turnDependent names =>
    "turn-dependent sentence names: " ++ Text.bracketed (names.map Text.quoted)
  | rejected f => s!"description rejected: {f.code}: {f.message}"
  | accepted facts rules warnings =>
    s!"description accepted: {facts} relations, {rules} rules, {warnings} warnings"

end Event

/-! ## Runs -/

/-- An outcome and the events before it, in order. -/
structure Run (α : Type) where
  outcome : Except Failure α
  trace : List Event

namespace Run

variable {α β : Type}

/-- Goes on after a success; a failure ends the run. -/
def bind (x : Run α) (f : α → Run β) : Run β :=
  match x.outcome with
  | .ok a => ⟨(f a).outcome, x.trace ++ (f a).trace⟩
  | .error e => ⟨.error e, x.trace⟩

instance : Monad Run where
  pure a := ⟨.ok a, []⟩
  bind := bind

/-- A run of one event. -/
def emit (e : Event) : Run Unit := ⟨.ok (), [e]⟩

/-- Ends the run if there is a fault. -/
def reject? : Option Fault → Run Unit
  | some f => ⟨.error (.fault f), []⟩
  | none => ⟨.ok (), []⟩

instance : MonadLift (Except Failure) Run := ⟨fun x => ⟨x, []⟩⟩

instance : MonadLift (Except Fault) Run := ⟨fun x => ⟨x.mapError .fault, []⟩⟩

instance : MonadLift (Except Malformed) Run := ⟨fun x => ⟨x.mapError .malformed, []⟩⟩

/-! ## Laws -/

theorem bind_eq (x : Run α) (f : α → Run β) : x >>= f = x.bind f := rfl

/-- A run goes well exactly if its first part does and the rest does after it. -/
theorem bind_outcome_eq_ok {x : Run α} {f : α → Run β} {b : β} :
    (x >>= f).outcome = .ok b ↔ ∃ a, x.outcome = .ok a ∧ (f a).outcome = .ok b := by
  rw [bind_eq]
  unfold bind
  cases h : x.outcome with
  | ok a => simp
  | error e => simp

/-- A run fails in its first part, or in the rest after the first part has gone well. -/
theorem bind_outcome_eq_error {x : Run α} {f : α → Run β} {e : Failure} :
    (x >>= f).outcome = .error e ↔
      x.outcome = .error e ∨ ∃ a, x.outcome = .ok a ∧ (f a).outcome = .error e := by
  rw [bind_eq]
  unfold bind
  cases h : x.outcome with
  | ok a => simp
  | error e' => simp

/-! ## Rejections -/

/-- Notes the fault, if one ended the run. -/
def noteRejection (x : Run α) : Run α :=
  match x.outcome with
  | .error (.fault f) => ⟨x.outcome, x.trace ++ [.rejected f]⟩
  | _ => x

@[simp] theorem noteRejection_outcome (x : Run α) : x.noteRejection.outcome = x.outcome := by
  unfold noteRejection
  split <;> rfl

end Run

end GameRules
