/-
Diagnostics: a coded finding about a description, what it is about, and notes that explain it.
-/
import GameRules.Node.Equality

namespace GameRules

inductive Severity where
  | error
  | warning
  deriving DecidableEq

def Severity.label : Severity → String
  | error => "ERROR"
  | warning => "WARNING"

/-- What a finding is about. -/
inductive Subject where
  | nothing
  | name (s : String)
  | line (n : Nat)
  | edge (start stop : String)
  | node (n : Node)
  deriving DecidableEq

structure Note where
  message : String
  subject : Subject
  deriving DecidableEq

structure Diagnostic where
  code : String
  message : String
  severity : Severity
  subject : Subject
  notes : List Note
  deriving DecidableEq

namespace Diagnostic

/-- The same finding with more notes after the ones it has. -/
def withNotes (d : Diagnostic) (more : List Note) : Diagnostic :=
  { d with notes := d.notes ++ more }

def warning (code message : String) (subject : Subject) : Diagnostic :=
  ⟨code, message, .warning, subject, []⟩

def error (code message : String) (subject : Subject) (notes : List Note) : Diagnostic :=
  Diagnostic.withNotes ⟨code, message, .error, subject, []⟩ notes

/-- A headline, and one line for each note. -/
def format (d : Diagnostic) : String :=
  "\n".intercalate (s!"{d.severity.label}: {d.code}: {d.message}" ::
    d.notes.map fun n => s!"  note: {n.message}")

end Diagnostic

end GameRules
