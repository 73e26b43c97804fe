/-
The terms of a relation, read in four ways. The walk meets them one after another; one list takes the
functions out of them and another the variables; and a test asks whether there is a variable at all.
Any node may stand among the arguments, but all four go on into functions only, so they read the same
terms, in the same order and as often as these occur.
-/
import GameRules.Proofs.Node.Occurrence
import Mathlib.Data.List.Basic

namespace GameRules.Node

/-! ## What the walk meets -/

/-- All that is met on the walk from a node, in whichever place. -/
def nodesMet (n : Node) : List Node := n.walk.map Visit.met

/-- What is met in the place of a term on the walk from a node. -/
def termsMet (n : Node) : List Node := n.walk.filterMap Visit.term?

/-- From the place of a term the walk never leaves it. -/
theorem filterMap_term?_walkTerm (t : Node) :
    t.walkTerm.filterMap Visit.term? = t.walkTerm.map Visit.met := by
  induction t with
  | fn name args ih =>
    rw [walkTerm, walkTerms_eq_flatMap, List.filterMap_cons, List.filterMap_flatMap, List.map_cons,
      List.map_flatMap]
    exact congrArg (fn name args :: ·) (List.flatMap_congr ih)
  | _ => rfl

theorem termsMet_rel (name : String) (ts : List Node) :
    (rel name ts).termsMet = ts.flatMap fun t => t.walkTerm.map Visit.met := by
  rw [termsMet, walk, walkTerms_eq_flatMap, List.filterMap_cons, List.filterMap_flatMap]
  exact List.flatMap_congr fun t _ => filterMap_term?_walkTerm t

theorem nodesMet_rel (name : String) (ts : List Node) :
    (rel name ts).nodesMet = rel name ts :: (rel name ts).termsMet := by
  rw [termsMet_rel, nodesMet, walk, walkTerms_eq_flatMap, List.map_cons, List.map_flatMap]
  rfl

/-! ## Readings of terms -/

/-- A reading that keeps a term or passes it over, and then goes on into the arguments if the term is a
function, reads what the walk meets. -/
theorem read_eq_filter (read : Node → List Node) {keeps : Node → Bool}
    (hfn : ∀ name args, read (fn name args) = [fn name args].filter keeps ++ args.flatMap read)
    (hleaf : ∀ t, (∀ name args, t ≠ fn name args) → read t = [t].filter keeps) (t : Node) :
    read t = (t.walkTerm.map Visit.met).filter keeps := by
  induction t with
  | fn name args ih =>
    have hargs : args.flatMap read = (args.flatMap fun a => a.walkTerm.map Visit.met).filter keeps := by
      rw [List.filter_flatMap]
      exact List.flatMap_congr ih
    rw [hfn, hargs, ← List.filter_append, walkTerm, walkTerms_eq_flatMap, List.map_cons,
      List.map_flatMap]
    rfl
  | _ => exact hleaf _ (by simp)

theorem functions_eq_filter (t : Node) :
    t.functions.map Application.toNode =
      (t.walkTerm.map Visit.met).filter (·.kind = "Function") := by
  refine read_eq_filter (fun t => t.functions.map Application.toNode) (fun name args => ?_)
    (fun t ht => ?_) t
  · rw [functions, functionsIn_eq_flatMap, List.map_cons, List.map_flatMap]
    rfl
  · cases t with
    | fn name args => exact absurd rfl (ht name args)
    | plain p => cases p <;> rfl
    | _ => rfl

theorem vars_eq_filter (t : Node) :
    t.vars.map var = (t.walkTerm.map Visit.met).filter (·.kind = "Variable") := by
  refine read_eq_filter (fun t => t.vars.map var) (fun name args => ?_) (fun t ht => ?_) t
  · rw [vars, varsIn_eq_flatMap, List.map_flatMap]
    rfl
  · cases t with
    | fn name args => exact absurd rfl (ht name args)
    | plain p => cases p <;> rfl
    | _ => rfl

/-- A term is ground exactly if it has no variables. -/
theorem isGround_iff_vars (t : Node) : t.isGround = true ↔ t.vars = [] := by
  induction t with
  | fn name args ih =>
    rw [isGround, allGround_eq_all, List.all_eq_true, vars, varsIn_eq_flatMap, List.flatMap_eq_nil_iff]
    exact forall₂_congr ih
  | _ => simp [isGround, vars]

/-- The terms that the walk meets from a relation, and the lists of its functions and variables, agree.
The functions are the terms of that kind that are met, and so are the variables, in order and as often
as they are met. The walk meets the relation, then these terms and nothing else. And a term is ground
exactly if the list of its variables is empty. -/
theorem termsMet_rel_agree (name : String) (ts : List Node) :
    (functionsIn ts).map Application.toNode =
      (rel name ts).termsMet.filter (·.kind = "Function") ∧
    (varsIn ts).map var = (rel name ts).termsMet.filter (·.kind = "Variable") ∧
    (rel name ts).nodesMet = rel name ts :: (rel name ts).termsMet ∧
    ∀ t : Node, t.isGround = true ↔ varsIn [t] = [] := by
  refine ⟨?_, ?_, nodesMet_rel name ts, fun t => ?_⟩
  · rw [functionsIn_eq_flatMap, List.map_flatMap, termsMet_rel, List.filter_flatMap]
    exact List.flatMap_congr fun t _ => functions_eq_filter t
  · rw [varsIn_eq_flatMap, List.map_flatMap, termsMet_rel, List.filter_flatMap]
    exact List.flatMap_congr fun t _ => vars_eq_filter t
  · rw [varsIn_eq_flatMap, List.flatMap_singleton]
    exact isGround_iff_vars t

end GameRules.Node
