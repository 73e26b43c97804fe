/-
Parentheses of a text, line by line. What follows a semicolon in a line is a comment. A text is
refused at the first parenthesis that closes nothing, or else at the last one left open.
-/
import GameRules.Fault

namespace GameRules.Text

/-- A parenthesis and the line it stands on. -/
structure Mark where
  opening : Bool
  line : Nat
  text : String
  deriving DecidableEq

/-- The parentheses of one line. -/
def lineMarks (line : Nat) (text : String) : List Mark :=
  (text.toList.takeWhile (· ≠ ';')).filterMap fun c =>
    if c = '(' then some ⟨true, line, text⟩
    else if c = ')' then some ⟨false, line, text⟩
    else none

/-- The parentheses of some lines, which are counted from a number on. -/
def marks : Nat → List String → List Mark
  | _, [] => []
  | n, text :: rest => lineMarks n text ++ marks (n + 1) rest

/-- Matches parentheses, with the lines of those that are open, the latest first. -/
def matchFault? : List Nat → List Mark → Option Fault
  | [], [] => none
  | line :: _, [] => some (.extraOpen line)
  | opened, m :: rest =>
    if m.opening then matchFault? (m.line :: opened) rest
    else
      match opened with
      | [] => some (.extraClose m.line m.text)
      | _ :: opened => matchFault? opened rest

/-- The first fault of the parentheses in some lines. -/
def parenthesisFault? (lines : List String) : Option Fault := matchFault? [] (marks 1 lines)

def isLineBreak (c : Char) : Bool := c = '\r' || c = '\n'

/-- The pieces between line breaks; every break counts, also the second of two in a row. -/
def pieces : List Char → List (List Char)
  | [] => [[]]
  | c :: cs =>
    if isLineBreak c then [] :: pieces cs
    else
      match pieces cs with
      | [] => [[c]]
      | piece :: rest => (c :: piece) :: rest

def lines (text : String) : List String := (pieces text.toList).map String.ofList

end GameRules.Text
