/-
Reserved sentence names: their arities, whether a description needs them, and where in the rules
they may stand.
-/
import GameRules.NameSet

namespace GameRules

/-- A restriction on the place of a keyword, or what makes it restrict others. -/
inductive Placement where
  /-- Facts define it, rules never do. -/
  | factsOnly
  /-- It is never the head of a rule. -/
  | bodyOnly
  /-- No body uses it. -/
  | headOnly
  /-- It does not depend on what changes from turn to turn. -/
  | turnIndependent
  /-- It changes from turn to turn. -/
  | turnMarker
  /-- It does not depend on the moves of the turn. -/
  | actionIndependent
  /-- It stands for the moves of the turn. -/
  | action
  deriving DecidableEq

/-- A reserved name. The hint says what its arguments mean. -/
structure Keyword where
  name : String
  arity : Int
  required : Bool
  hint : String
  placement : List Placement
  deriving DecidableEq

namespace Keyword

/-- The keywords that every game has. -/
def standard : List Keyword :=
  [⟨"role", 1, true, "argument: the player name", [.factsOnly]⟩,
   ⟨"terminal", 0, true, "", [.turnMarker, .actionIndependent]⟩,
   ⟨"goal", 2, true, "first argument: the player, second argument: integer from 0 to 100",
    [.turnMarker, .actionIndependent]⟩,
   ⟨"legal", 2, true, "first argument: the player, second argument: the move",
    [.turnMarker, .actionIndependent]⟩,
   ⟨"does", 2, false, "first argument: the player, second argument: the move",
    [.bodyOnly, .turnMarker, .action]⟩,
   ⟨"init", 1, false, "argument: the base truth", [.headOnly, .turnIndependent]⟩,
   ⟨"true", 1, false, "argument: the base truth", [.bodyOnly, .turnMarker]⟩,
   ⟨"next", 1, false, "argument: the base truth", [.headOnly, .turnMarker]⟩,
   ⟨"base", 1, false, "argument: the base truth", [.headOnly, .turnIndependent]⟩,
   ⟨"input", 2, false, "first argument: the player, second argument: the move",
    [.headOnly, .turnIndependent]⟩]

/-- The names of a table of keywords. -/
def names (ks : List Keyword) : NameSet := .ofList (ks.map (·.name))

/-- The names with a placement, in table order. -/
def placed (p : Placement) (ks : List Keyword) : List String :=
  (ks.filter (p ∈ ·.placement)).map (·.name)

theorem mem_placed {p : Placement} {ks : List Keyword} {n : String} :
    n ∈ placed p ks ↔ ∃ k ∈ ks, p ∈ k.placement ∧ k.name = n := by
  simp [placed, and_assoc]

/-- Names offered as alternatives: a single one stands alone, the last of several follows "or". If there
is no last name, nothing can be offered. -/
def alternatives? : List String → Option String
  | [name] => some name
  | names => names.getLast?.map (", ".intercalate names.dropLast ++ ", or " ++ ·)

theorem alternatives?_eq_none_iff {names : List String} : alternatives? names = none ↔ names = [] := by
  unfold alternatives?
  split <;> simp

end Keyword

end GameRules
