/-
Two equalities of nodes. The one of trees is decidable. The one that the checks use also reads the
truth values as the numbers 0 and 1, wherever in the tree they stand.
-/
import GameRules.Node.Basic

namespace GameRules

/-! ## Equality of trees -/

namespace Plain

mutual

def beq : Plain → Plain → Bool
  | text a, text b => a == b
  | number a, number b => a == b
  | truth a, truth b => a == b
  | nothing, nothing => true
  | list as, list bs => beqAll as bs
  | _, _ => false

def beqAll : List Plain → List Plain → Bool
  | [], [] => true
  | a :: as, b :: bs => beq a b && beqAll as bs
  | _, _ => false

end

mutual

theorem beq_iff : ∀ a b : Plain, beq a b = true ↔ a = b
  | text _, b => by cases b <;> simp [beq]
  | number _, b => by cases b <;> simp [beq]
  | truth _, b => by cases b <;> simp [beq]
  | nothing, b => by cases b <;> simp [beq]
  | list as, b => by cases b <;> simp [beq, beqAll_iff as]

theorem beqAll_iff : ∀ as bs : List Plain, beqAll as bs = true ↔ as = bs
  | [], bs => by cases bs <;> simp [beqAll]
  | a :: as, bs => by cases bs <;> simp [beqAll, beq_iff a, beqAll_iff as]

end

instance : DecidableEq Plain := fun a b => decidable_of_iff _ (beq_iff a b)

end Plain

namespace Node

mutual

def beq : Node → Node → Bool
  | const a, const b => a == b
  | var a, var b => a == b
  | fn a as, fn b bs => a == b && beqAll as bs
  | prop a, prop b => a == b
  | rel a as, rel b bs => a == b && beqAll as bs
  | neg a, neg b => beq a b
  | disj as, disj bs => beqAll as bs
  | distinct a a', distinct b b' => beq a b && beq a' b'
  | rule a as, rule b bs => beq a b && beqAll as bs
  | desc as, desc bs => beqAll as bs
  | plain a, plain b => a == b
  | _, _ => false

def beqAll : List Node → List Node → Bool
  | [], [] => true
  | a :: as, b :: bs => beq a b && beqAll as bs
  | _, _ => false

end

mutual

theorem beq_iff : ∀ a b : Node, beq a b = true ↔ a = b
  | const _, b => by cases b <;> simp [beq]
  | var _, b => by cases b <;> simp [beq]
  | fn _ as, b => by cases b <;> simp [beq, beqAll_iff as]
  | prop _, b => by cases b <;> simp [beq]
  | rel _ as, b => by cases b <;> simp [beq, beqAll_iff as]
  | neg a, b => by cases b <;> simp [beq, beq_iff a]
  | disj as, b => by cases b <;> simp [beq, beqAll_iff as]
  | distinct a a', b => by cases b <;> simp [beq, beq_iff a, beq_iff a']
  | rule a as, b => by cases b <;> simp [beq, beq_iff a, beqAll_iff as]
  | desc as, b => by cases b <;> simp [beq, beqAll_iff as]
  | plain _, b => by cases b <;> simp [beq]

theorem beqAll_iff : ∀ as bs : List Node, beqAll as bs = true ↔ as = bs
  | [], bs => by cases bs <;> simp [beqAll]
  | a :: as, bs => by cases bs <;> simp [beqAll, beq_iff a, beqAll_iff as]

end

instance : DecidableEq Node := fun a b => decidable_of_iff _ (beq_iff a b)

end Node

deriving instance DecidableEq for Rule

/-! ## Equality up to numbers -/

namespace Plain

mutual

/-- The value with every truth value read as 0 or 1. -/
def numeric : Plain → Plain
  | truth b => number (if b then 1 else 0)
  | list elems => list (numericAll elems)
  | p => p

def numericAll : List Plain → List Plain
  | [] => []
  | p :: ps => p.numeric :: numericAll ps

end

end Plain

namespace Node

mutual

/-- The tree with every truth value in it read as 0 or 1. -/
def numeric : Node → Node
  | fn name args => fn name (numericAll args)
  | rel name args => rel name (numericAll args)
  | neg body => neg body.numeric
  | disj ds => disj (numericAll ds)
  | distinct left right => distinct left.numeric right.numeric
  | rule head body => rule head.numeric (numericAll body)
  | desc items => desc (numericAll items)
  | plain p => plain p.numeric
  | n => n

def numericAll : List Node → List Node
  | [] => []
  | n :: ns => n.numeric :: numericAll ns

end

/-- The equality of nodes that the checks use: one tree, up to reading truth values as numbers. -/
def same (a b : Node) : Bool := a.numeric == b.numeric

theorem same_iff {a b : Node} : same a b = true ↔ a.numeric = b.numeric := by
  simp [same]

@[simp] theorem same_refl (a : Node) : same a a = true := same_iff.2 rfl

theorem same_comm (a b : Node) : same a b = same b a := by
  simp only [same, Bool.beq_comm]

theorem same_trans {a b c : Node} (h : same a b = true) (h' : same b c = true) :
    same a c = true :=
  same_iff.2 ((same_iff.1 h).trans (same_iff.1 h'))

end Node

end GameRules
