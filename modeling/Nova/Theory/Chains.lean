/-
# Nova.Theory.Chains — chains of a partial successor function

`next` gives every node at most one successor.  `hop next k a` is the node `k` steps
after `a`.  A node whose chain ends is on no cycle, and in a finite type `follow`,
which runs to the end of the chain, needs at most as many steps as there are nodes.
Setting and clearing one successor is `Function.update`.
-/
import Mathlib.Algebra.GroupWithZero.Nat
import Mathlib.Data.Fintype.Card
import Mathlib.Logic.Function.Basic

namespace Nova.Theory.Chains

set_option autoImplicit false

variable {α : Type} {next next' : α → Option α}

def hop (next : α → Option α) : Nat → α → Option α
  | 0, a => some a
  | k + 1, a => (next a).bind (hop next k)

/-- The last node of the chain of `a` and its distance, if `fuel` steps reach it -/
def follow (next : α → Option α) : Nat → α → Option (α × Nat)
  | 0, _ => none
  | fuel + 1, a =>
      match next a with
      | none => some (a, 0)
      | some b => (follow next fuel b).map fun r => (r.1, r.2 + 1)

/-- The chain of `a` ends. -/
def Ends (next : α → Option α) (a : α) : Prop := ∃ k, hop next k a = none

theorem hop_add (j k : Nat) (a : α) : hop next (j + k) a = (hop next j a).bind (hop next k) := by
  induction j generalizing a with
  | zero => rw [Nat.zero_add]; rfl
  | succ j ih =>
      rw [Nat.succ_add, hop, hop]
      cases next a with
      | none => rfl
      | some b => exact ih b

theorem hop_succ (k : Nat) (a : α) : hop next (k + 1) a = (hop next k a).bind next := by
  rw [hop_add]
  congr 1
  funext b
  show (next b).bind (hop next 0) = next b
  cases next b <;> rfl

theorem hop_none_of_le {j k : Nat} {a : α} (none : hop next j a = none) (le : j ≤ k) : hop next k a = Option.none := by
  obtain ⟨d, rfl⟩ := Nat.exists_eq_add_of_le le
  rw [hop_add, none]
  rfl

namespace Ends

theorem hop {a b : α} {k : Nat} (ends : Ends next a) (reached : hop next k a = some b) : Ends next b := by
  obtain ⟨j, none⟩ := ends
  refine ⟨j, ?_⟩
  have later := hop_none_of_le none (Nat.le_add_left j k)
  rwa [hop_add, reached] at later

/-- A chain that ends does not come back. -/
theorem not_cycle {a : α} (ends : Ends next a) (k : Nat) : Chains.hop next (k + 1) a ≠ some a := by
  intro cycle
  obtain ⟨j, none⟩ := ends
  have round : ∀ i, Chains.hop next (i * (k + 1)) a = some a := by
    intro i
    induction i with
    | zero => rw [Nat.zero_mul]; rfl
    | succ i ih => rw [Nat.succ_mul, hop_add, ih]; exact cycle
  have gone := hop_none_of_le none (Nat.le_mul_of_pos_right j (Nat.succ_pos k))
  rw [round j] at gone
  cases gone

end Ends

/-- The nodes before `b` do not notice a new successor of `b`. -/
theorem hop_update [DecidableEq α] {a b : α} {k : Nat} (ends : Ends next b) (reached : hop next k a = some b) (v : Option α) :
    hop (Function.update next b v) k a = some b := by
  induction k generalizing a with
  | zero => exact reached
  | succ k ih =>
      have ne : a ≠ b := by
        rintro rfl
        exact ends.not_cycle k reached
      rw [hop] at reached ⊢
      rw [Function.update_of_ne ne]
      cases succ : next a with
      | none =>
          rw [succ] at reached
          cases reached
      | some c =>
          rw [succ] at reached
          exact ih reached

/-- Chains end after `a` gets a successor that is the end of its own chain. -/
theorem ends_link [DecidableEq α] (ends : ∀ x, Ends next x) {a b : α} (last : next b = none) (ne : b ≠ a) :
    ∀ x, Ends (Function.update next a (some b)) x := by
  have step : ∀ k x, hop next k x = none → Ends (Function.update next a (some b)) x := by
    intro k
    induction k with
    | zero => intro x none; cases none
    | succ k ih =>
        intro x none
        by_cases here : x = a
        · subst here
          refine ⟨2, ?_⟩
          simp [hop, Function.update_of_ne ne, last]
        · rw [hop] at none
          cases succ : next x with
          | none =>
              refine ⟨1, ?_⟩
              simp [hop, Function.update_of_ne here, succ]
          | some c =>
              rw [succ] at none
              obtain ⟨j, gone⟩ := ih c none
              refine ⟨j + 1, ?_⟩
              simpa [hop, Function.update_of_ne here, succ] using gone
  intro x
  obtain ⟨k, none⟩ := ends x
  exact step k x none

/-- Chains end after `a` loses its successor. -/
theorem ends_unlink [DecidableEq α] (ends : ∀ x, Ends next x) (a : α) :
    ∀ x, Ends (Function.update next a none) x := by
  have step : ∀ k x, hop next k x = none → Ends (Function.update next a none) x := by
    intro k
    induction k with
    | zero => intro x none; cases none
    | succ k ih =>
        intro x none
        by_cases here : x = a
        · subst here
          exact ⟨1, by simp [hop]⟩
        · rw [hop] at none
          cases succ : next x with
          | none => exact ⟨1, by simp [hop, Function.update_of_ne here, succ]⟩
          | some c =>
              rw [succ] at none
              obtain ⟨j, gone⟩ := ih c none
              refine ⟨j + 1, ?_⟩
              simpa [hop, Function.update_of_ne here, succ] using gone
  intro x
  obtain ⟨k, none⟩ := ends x
  exact step k x none

/-- What passes on to successors holds along the chain. -/
theorem hop_closed {P : α → Prop} (closed : ∀ a b, P a → next a = some b → P b) {k : Nat} {a b : α} (start : P a)
    (reached : hop next k a = some b) : P b := by
  induction k generalizing a with
  | zero =>
      cases reached
      exact start
  | succ k ih =>
      rw [hop] at reached
      cases succ : next a with
      | none =>
          rw [succ] at reached
          cases reached
      | some c =>
          rw [succ] at reached
          exact ih (closed a c start succ) reached

/-- Nodes with `P`, whose successors have `P`, see only the successors of such nodes. -/
theorem hop_congr {P : α → Prop} (closed : ∀ a b, P a → next a = some b → P b) (same : ∀ a, P a → next' a = next a)
    {k : Nat} {a : α} (start : P a) : hop next' k a = hop next k a := by
  induction k generalizing a with
  | zero => rfl
  | succ k ih =>
      rw [hop, hop, same a start]
      cases succ : next a with
      | none => rfl
      | some b => exact ih (closed a b start succ)

theorem follow_eq_some {fuel : Nat} {a b : α} {d : Nat} (done : follow next fuel a = some (b, d)) :
    hop next d a = some b ∧ next b = none := by
  induction fuel generalizing a d with
  | zero => cases done
  | succ fuel ih =>
      rw [follow] at done
      cases succ : next a with
      | none =>
          rw [succ] at done
          cases done
          exact ⟨rfl, succ⟩
      | some c =>
          rw [succ] at done
          obtain ⟨⟨x, d'⟩, found, same⟩ := Option.map_eq_some_iff.mp done
          cases same
          obtain ⟨reached, last⟩ := ih found
          refine ⟨?_, last⟩
          rw [hop, succ]
          exact reached

section Finite

variable [Fintype α]

/-- A chain that ends is shorter than the number of nodes. -/
theorem hop_lt_card {a b : α} {k : Nat} (ends : Ends next a) (reached : hop next k a = some b) : k < Fintype.card α := by
  have defined : ∀ i : Fin (k + 1), ∃ c, hop next i a = some c := by
    intro i
    cases at_ : hop next i a with
    | some c => exact ⟨c, rfl⟩
    | none =>
        have := hop_none_of_le at_ (Nat.le_of_lt_succ i.isLt)
        rw [reached] at this
        cases this
  choose node at_ using defined
  have apart : ∀ i j : Fin (k + 1), i < j → node i ≠ node j := by
    intro i j less same
    obtain ⟨d, e⟩ := Nat.exists_eq_add_of_lt less
    have here := at_ i
    have there := at_ j
    rw [e, Nat.add_assoc, hop_add, here, ← same] at there
    exact (ends.hop here).not_cycle d there
  have injective : Function.Injective node := by
    intro i j same
    rcases Nat.lt_trichotomy i.val j.val with less | equal | greater
    · exact absurd same (apart i j less)
    · exact Fin.ext equal
    · exact absurd same.symm (apart j i greater)
  have := Fintype.card_le_of_injective node injective
  rw [Fintype.card_fin] at this
  exact this

/-- `follow` reaches the end. -/
theorem follow_of_ends {a : α} (ends : Ends next a) {fuel : Nat} (enough : Fintype.card α ≤ fuel) :
    ∃ b d, follow next fuel a = some (b, d) := by
  have walk : ∀ (fuel : Nat) (a : α), hop next fuel a = none → ∃ b d, follow next fuel a = some (b, d) := by
    intro fuel
    induction fuel with
    | zero => intro a none; cases none
    | succ fuel ih =>
        intro a none
        rw [hop] at none
        rw [follow]
        cases succ : next a with
        | none => exact ⟨a, 0, rfl⟩
        | some c =>
            rw [succ] at none
            obtain ⟨b, d, found⟩ := ih c none
            exact ⟨b, d + 1, by simp only [found]; rfl⟩
  refine walk fuel a ?_
  cases at_ : hop next fuel a with
  | none => rfl
  | some b => exact absurd (hop_lt_card ends at_) (Nat.not_lt.mpr enough)

end Finite

end Nova.Theory.Chains
