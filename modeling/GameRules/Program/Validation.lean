/-
Validation of a description: the checks in their fixed order, with the events on the way. The first
fault ends the run. A description without a fault is accepted with its warnings.
-/
import GameRules.Arity.Tables
import GameRules.Graph.OfRules
import GameRules.Keyword.Use
import GameRules.Node.Traversal
import GameRules.Program.Basic
import GameRules.Rule.Growth
import GameRules.Rule.Safety
import GameRules.Text.Parentheses

namespace GameRules

/-- All checks that facts and rules go through. What is left are their tables. -/
def examine (facts : List Node) (rules : List Rule) (ks : List Keyword) : Run ArityTables := do
  Run.reject? (Node.emptyFormFault? (facts ++ rules.map Rule.toNode))
  let tables ← ArityTables.build facts rules
  Run.reject? (Keyword.arityFault? tables.sentences tables.functions ks)
  Run.emit (.tablesBuilt tables.sentences.entries.length tables.functions.entries.length)
  Run.reject? (rules.findSome? Rule.negationFault?)
  Run.reject? (rules.findSome? Rule.safetyFault?)
  let names := tables.sentences.names
  let g ← stratifiedGraph rules names
  Keyword.checkPlacing g names ks
  Run.reject? (← Rule.growthFaultIn? (g.ancestors (.ofList names)) rules)
  return tables

/-- All checks that can refuse a description. What is left is its program and the warnings so
far. -/
def analyse (items : List Node) (ks : List Keyword) : Run (Program × List Warning) := do
  let p ← Program.ofItems items
  let tables ← examine p.facts p.rules ks
  return (p, p.bareWarnings ++ tables.sharedNames)

/-- Validates a description under a table of keywords. -/
def validate (items : List Node) (ks : List Keyword) : Run (List Warning) := do
  let (p, early) ← (analyse items ks).noteRejection
  let late ← undefinedWarnings p.facts p.rules
  let warnings := early ++ late
  Run.emit (.accepted p.facts.length p.rules.length warnings.length)
  return warnings

/-- Validates a description together with the text it was read from; the text goes first. -/
def validateText (text : String) (items : List Node) (ks : List Keyword) : Run (List Warning) := do
  Run.reject? (Text.parenthesisFault? (Text.lines text))
  validate items ks

end GameRules
