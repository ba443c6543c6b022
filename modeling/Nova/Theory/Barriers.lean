/-
# Nova.Theory.Barriers — how many members of a family are in a class

A counter that every member increments when it enters a class and decrements when it leaves
tells how many are in the class; `enter`, `leave` and `same` are the three kinds of steps.
What a program does with such a counter is to wait until nobody is in the class (`zero`), or
until all are (`full`).
-/
import Mathlib.Algebra.GroupWithZero.Nat
import Mathlib.Data.Fintype.Card

namespace Nova.Theory.Barriers

set_option autoImplicit false

variable {ι α : Type} [Fintype ι]

/-- `k` members of the family are in the class. -/
def Counts (class_ : α → Bool) (f : ι → α) (k : Nat) : Prop := (Finset.univ.filter fun i => class_ (f i) = true).card = k

variable {class_ : α → Bool} {f g : ι → α} {k : Nat} {i : ι} {x : α}

theorem Counts.congr (counts : Counts class_ f k) (same : ∀ i, class_ (g i) = class_ (f i)) : Counts class_ g k := by
  unfold Counts
  rw [Finset.filter_congr fun i _ => by rw [same i]]
  exact counts

theorem Counts.zero (counts : Counts class_ f 0) (i : ι) : class_ (f i) = false := by
  have empty := Finset.card_eq_zero.mp counts
  cases is : class_ (f i) with
  | false => rfl
  | true => exact absurd (empty ▸ (by simp [is] : i ∈ Finset.univ.filter fun i => class_ (f i) = true)) (Finset.notMem_empty i)

theorem counts_zero (out : ∀ i, class_ (f i) = false) : Counts class_ f 0 := by
  rw [Counts, Finset.filter_false_of_mem fun i _ => by rw [out i]; exact Bool.false_ne_true, Finset.card_empty]

theorem counts_full (in_ : ∀ i, class_ (f i) = true) : Counts class_ f (Fintype.card ι) := by
  rw [Counts, Finset.filter_true_of_mem fun i _ => in_ i, Finset.card_univ]

theorem Counts.pos (counts : Counts class_ f k) (in_ : class_ (f i) = true) : 0 < k := by
  rw [← counts]
  exact Finset.card_pos.mpr ⟨i, by simp [in_]⟩

theorem Counts.le (counts : Counts class_ f k) : k ≤ Fintype.card ι := by
  rw [← counts, ← Finset.card_univ]
  exact Finset.card_le_card (Finset.filter_subset _ _)

theorem Counts.lt (counts : Counts class_ f k) (out : class_ (f i) = false) : k < Fintype.card ι := by
  refine Nat.lt_of_le_of_ne counts.le fun full => ?_
  have all : (Finset.univ.filter fun i => class_ (f i) = true) = Finset.univ := Finset.eq_univ_of_card _ (counts.trans full)
  have in_ : class_ (f i) = true := by
    have member := Finset.mem_univ i
    rw [← all] at member
    exact (Finset.mem_filter.mp member).2
  rw [in_] at out
  cases out

/-- **All members are in the class** if there are as many. -/
theorem Counts.full (counts : Counts class_ f (Fintype.card ι)) (i : ι) : class_ (f i) = true := by
  cases is : class_ (f i) with
  | true => rfl
  | false => exact absurd (counts.lt is) (Nat.lt_irrefl _)

/-! ## Steps -/

section Steps

variable [DecidableEq ι]

theorem Counts.same (counts : Counts class_ f k) (same : class_ x = class_ (f i)) : Counts class_ (Function.update f i x) k := by
  refine counts.congr fun j => ?_
  by_cases here : j = i
  · subst here
    rw [Function.update_self, same]
  · rw [Function.update_of_ne here]

theorem Counts.enter (counts : Counts class_ f k) (out : class_ (f i) = false) (in_ : class_ x = true) :
    Counts class_ (Function.update f i x) (k + 1) := by
  have more : (Finset.univ.filter fun j => class_ (Function.update f i x j) = true) =
      insert i (Finset.univ.filter fun j => class_ (f j) = true) := by
    ext j
    by_cases here : j = i
    · subst here
      simp [in_]
    · simp [here]
  have new : i ∉ Finset.univ.filter fun j => class_ (f j) = true := by simp [out]
  rw [Counts, more, Finset.card_insert_of_notMem new, counts]

theorem Counts.leave (counts : Counts class_ f k) (in_ : class_ (f i) = true) (out : class_ x = false) :
    0 < k ∧ Counts class_ (Function.update f i x) (k - 1) := by
  have fewer : (Finset.univ.filter fun j => class_ (Function.update f i x j) = true) =
      (Finset.univ.filter fun j => class_ (f j) = true).erase i := by
    ext j
    by_cases here : j = i
    · subst here
      simp [out]
    · simp [here]
  have member : i ∈ Finset.univ.filter fun j => class_ (f j) = true := by simp [in_]
  have some := Finset.card_pos.mpr ⟨i, member⟩
  rw [counts] at some
  refine ⟨some, ?_⟩
  rw [Counts, fewer, Finset.card_erase_of_mem member, counts]

end Steps

end Nova.Theory.Barriers
