/-
The program of a description: its facts and its rules. Bare propositions are set aside, and nothing
else may stand among the items.
-/
import GameRules.Fault
import GameRules.Node.Occurrence

namespace GameRules

/-- Facts, rules and the names of bare propositions, each in item order. -/
structure Program where
  facts : List Node
  rules : List Rule
  propositions : List String
  deriving DecidableEq

/-- A node that may stand among the items. -/
def Node.isItem : Node → Bool
  | .rel _ _ => true
  | .rule _ _ => true
  | .prop _ => true
  | _ => false

namespace Program

/-- Sorts the items, or names the first that has no place among them. -/
def ofItems (items : List Node) : Except Fault Program :=
  match items.find? (!·.isItem) with
  | some item => .error (.strayItem item)
  | none => .ok ⟨items.filter Node.isRelation, items.filterMap Node.rule?,
      items.filterMap Node.proposition?⟩

/-- A warning for each bare proposition. -/
def bareWarnings (p : Program) : List Warning := p.propositions.map .bareProposition

end Program

/-! ## Definedness -/

/-- The sentence names that the game itself supplies. -/
def suppliedNames : List String := ["true", "does"]

/-- The sentence names that bodies use. -/
def usedNames (rules : List Rule) : NameSet :=
  .ofList ((rules.flatMap Rule.bodySentences).filterMap Node.name?)

/-- A warning for each name that a body uses and that no fact and no head defines, in increasing
order. -/
def undefinedWarnings (facts : List Node) (rules : List Rule) : Except Malformed (List Warning) := do
  let factNames ← facts.mapM Node.getName
  let headNames ← rules.mapM fun r => r.head.getName
  let defined := suppliedNames ++ factNames ++ headNames
  return ((usedNames rules).toList.filter (!defined.contains ·)).map .undefinedSentence

end GameRules
