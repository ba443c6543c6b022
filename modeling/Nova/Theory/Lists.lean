/-
# Nova.Theory.Lists — families of lists

A system keeps its items on several lists at once (free lists, queues, the hands
of threads).  The contents of such a family, all lists together, after one of them
was replaced:
-/
import Mathlib.Algebra.GroupWithZero.Nat
import Mathlib.Data.List.FinRange
import Mathlib.Data.List.Perm.Basic
import Mathlib.Data.List.Nodup
import Mathlib.Data.List.Pairwise
import Mathlib.Logic.Function.Basic

namespace Nova.Theory.Lists

set_option autoImplicit false

/-- What the members of a family contribute, after one of them was replaced. -/
theorem flatMap_update_perm {α β : Type} {n : Nat} (contents : β → List α) (family : Fin n → β)
    (j : Fin n) (new : β) :
    ((List.finRange n).flatMap fun i => contents (Function.update family j new i)).Perm
      (contents new ++ ((List.finRange n).erase j).flatMap fun i => contents (family i)) := by
  have split : (List.finRange n).Perm (j :: (List.finRange n).erase j) :=
    List.perm_cons_erase (List.mem_finRange j)
  refine (split.flatMap_right _).trans ?_
  rw [List.flatMap_cons, Function.update_self]
  have absent : j ∉ (List.finRange n).erase j := (List.nodup_finRange n).not_mem_erase
  have tail : (((List.finRange n).erase j).flatMap fun i => contents (Function.update family j new i)) =
      ((List.finRange n).erase j).flatMap fun i => contents (family i) := by
    apply List.flatMap_congr
    intro i member
    have other : i ≠ j := fun e => absent (e ▸ member)
    rw [Function.update_of_ne other]
  rw [tail]

/-- The same for the member that is there. -/
theorem flatMap_perm {α β : Type} {n : Nat} (contents : β → List α) (family : Fin n → β) (j : Fin n) :
    ((List.finRange n).flatMap fun i => contents (family i)).Perm
      (contents (family j) ++ ((List.finRange n).erase j).flatMap fun i => contents (family i)) := by
  have row := flatMap_update_perm contents family j (family j)
  rwa [Function.update_eq_self] at row

end Nova.Theory.Lists
