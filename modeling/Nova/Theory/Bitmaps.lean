/-
# Nova.Theory.Bitmaps — bits in arrays of words

A bitmap is an array of 64-bit words; bit `b` is bit `b % 64` of word `b / 64`.
Accesses outside of the array are `none`.  `bit` is what a bitmap means: `word_eq` tests
a bit with a mask, `modify_clear` and `modify_set` change one.
-/
import Nova.Theory.Words

namespace Nova.Theory.Bitmaps

open Nova.Theory.Words

set_option autoImplicit false

abbrev Bitmap (n : Nat) := Vector Word n

variable {n : Nat}

/-- The word at `i` -/
def word (m : Bitmap n) (i : Nat) : Option Word := m[i]?

def modify (m : Bitmap n) (i : Nat) (f : Word → Word) : Option (Bitmap n) :=
  if below : i < n then some (m.set i (f m[i])) else none

/-- Bit `b`, false outside -/
def bit (m : Bitmap n) (b : Nat) : Bool := (m[b / 64]?.getD 0#64).getLsbD (b % 64)

theorem word_eq {m : Bitmap n} {b : Nat} (below : b / 64 < n) :
    (word m (b / 64)).map (fun w => decide (w &&& 1#64 <<< (b % 64) ≠ 0#64)) = some (bit m b) := by
  have small : b % 64 < 64 := Nat.mod_lt b (by decide)
  rw [word, bit, Vector.getElem?_eq_getElem below, Option.map_some, Option.getD_some, Option.some.injEq, Bool.eq_iff_iff,
    decide_eq_true_eq]
  exact and_bit_ne_zero m[b / 64] small

/-- The bits after one word has changed in one bit -/
theorem modify_spec {m : Bitmap n} {b : Nat} (below : b / 64 < n) {f : Word → Word} {v : Bool}
    (bits : ∀ w i, (f w).getLsbD i = if i = b % 64 then v else w.getLsbD i) :
    ∃ m', modify m (b / 64) f = some m' ∧ ∀ c, bit m' c = if c = b then v else bit m c := by
  refine ⟨m.set (b / 64) (f m[b / 64]), by rw [modify, dif_pos below], fun c => ?_⟩
  by_cases here : c / 64 = b / 64
  · rw [bit, bit, here, Vector.getElem?_set_self, Vector.getElem?_eq_getElem below, Option.getD_some, Option.getD_some, bits]
    have same : c % 64 = b % 64 ↔ c = b := by omega
    simp only [same]
  · have other : c ≠ b := fun is => here (is ▸ rfl)
    rw [bit, bit, Vector.getElem?_set_ne _ (Ne.symm here), if_neg other]

theorem getLsbD_mask {k : Nat} (small : k < 64) (i : Nat) : (1#64 <<< k).getLsbD i = decide (i = k) := by
  rw [show (1#64 <<< k : Word) = BitVec.twoPow 64 k from rfl, BitVec.getLsbD_twoPow]
  simp [small, eq_comm]

theorem getLsbD_clear {k : Nat} (small : k < 64) (w : Word) (i : Nat) :
    (w &&& ~~~ (1#64 <<< k)).getLsbD i = if i = k then false else w.getLsbD i := by
  rw [BitVec.getLsbD_and, BitVec.getLsbD_not, getLsbD_mask small]
  by_cases here : i = k
  · simp [here]
  · by_cases inside : i < 64
    · simp [here, inside]
    · simp [here, BitVec.getLsbD_of_ge w i (Nat.not_lt.mp inside)]

theorem getLsbD_set {k : Nat} (small : k < 64) (w : Word) (i : Nat) :
    (w ||| 1#64 <<< k).getLsbD i = if i = k then true else w.getLsbD i := by
  rw [BitVec.getLsbD_or, getLsbD_mask small]
  by_cases here : i = k
  · simp [here]
  · simp [here]

theorem modify_clear {m : Bitmap n} {b : Nat} (below : b / 64 < n) :
    ∃ m', modify m (b / 64) (fun w => w &&& ~~~ (1#64 <<< (b % 64))) = some m' ∧
      ∀ c, bit m' c = if c = b then false else bit m c :=
  modify_spec below (getLsbD_clear (Nat.mod_lt b (by decide)))

theorem modify_set {m : Bitmap n} {b : Nat} (below : b / 64 < n) :
    ∃ m', modify m (b / 64) (fun w => w ||| 1#64 <<< (b % 64)) = some m' ∧ ∀ c, bit m' c = if c = b then true else bit m c :=
  modify_spec below (getLsbD_set (Nat.mod_lt b (by decide)))

end Nova.Theory.Bitmaps
