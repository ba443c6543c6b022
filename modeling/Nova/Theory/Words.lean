/-
# Nova.Theory.Words — bit fields and digits of machine words

Two views of a 64-bit word are used side by side: its bits (flags, masks) and
its value (alignment, bounds, sums).  `Within k n x` says both that only bits
`k … n-1` of `x` may be set and that `x` is a multiple of `2^k` below `2^n`;
the rest of the module moves between the two.  `digits_agree` is the digit
reading of a quotient, which is how a radix walk sees an address.
-/
import Mathlib.Algebra.GroupWithZero.Nat
import Mathlib.Data.Nat.Bitwise
import Mathlib.Tactic.Ring
import Mathlib.Tactic.Linarith

namespace Nova.Theory.Words

set_option autoImplicit false

abbrev Word := BitVec 64

/-! ## Flags -/

/-- The word with bit `i` set if `b` holds, and no other bit. -/
def flag (b : Bool) (i : Nat) : Word := if b then BitVec.twoPow 64 i else 0#64

@[simp] theorem getLsbD_flag (b : Bool) (i j : Nat) :
    (flag b i).getLsbD j = (b && decide (i < 64) && decide (i = j)) := by
  cases b <;> simp [flag, BitVec.getLsbD_twoPow]

@[simp] theorem getElem_flag (b : Bool) (i : Nat) {j : Nat} (hj : j < 64) :
    (flag b i)[j] = (b && decide (i < 64) && decide (i = j)) := by
  rw [← BitVec.getLsbD_eq_getElem, getLsbD_flag]

/-- The word whose set bits are `l … h`. -/
def bitRange (h l : Nat) : Word := (2#64 <<< h) - (1#64 <<< l)

/-- The word whose set bits are those below `k`. -/
def lowMask (k : Nat) : Word := (1#64 <<< k) - 1#64

theorem toNat_lowMask {k : Nat} (hk : k < 64) : (lowMask k).toNat = 2 ^ k - 1 := by
  have small : 2 ^ k < 2 ^ 64 := Nat.pow_lt_pow_right (by decide) hk
  have pos : 0 < 2 ^ k := Nat.two_pow_pos k
  rw [lowMask, BitVec.toNat_sub, BitVec.toNat_shiftLeft, Nat.shiftLeft_eq]
  simp only [BitVec.toNat_ofNat, Nat.one_mod, Nat.one_mul] at *
  rw [Nat.mod_eq_of_lt small]
  omega

theorem getLsbD_lowMask {k : Nat} (hk : k < 64) (i : Nat) :
    (lowMask k).getLsbD i = decide (i < k) := by
  rw [← BitVec.testBit_toNat, toNat_lowMask hk, Nat.testBit_two_pow_sub_one]

/-! ## Fields -/

/-- Only bits `k … n-1` may be set. -/
def Within (k n : Nat) (x : Word) : Prop := x.toNat % 2 ^ k = 0 ∧ x.toNat < 2 ^ n

instance (k n : Nat) (x : Word) : Decidable (Within k n x) :=
  inferInstanceAs (Decidable (_ ∧ _))

theorem Within.bit {k n : Nat} {x : Word} (field : Within k n x) {i : Nat}
    (outside : i < k ∨ n ≤ i) : x.getLsbD i = false := by
  rw [← BitVec.testBit_toNat]
  rcases outside with low | high
  · have := Nat.testBit_mod_two_pow x.toNat k i
    rw [field.1] at this
    simpa [low] using this.symm
  · exact Nat.testBit_lt_two_pow (lt_of_lt_of_le field.2 (Nat.pow_le_pow_right (by decide) high))

theorem Within.getElem {k n : Nat} {x : Word} (field : Within k n x) {i : Nat} (hi : i < 64)
    (outside : i < k ∨ n ≤ i) : x[i] = false := by
  rw [← BitVec.getLsbD_eq_getElem, field.bit outside]

theorem within_of_bits {k n : Nat} {x : Word}
    (bits : ∀ i, x.getLsbD i = true → k ≤ i ∧ i < n) : Within k n x := by
  refine ⟨?_, ?_⟩
  · apply Nat.eq_of_testBit_eq
    intro i
    rw [Nat.testBit_mod_two_pow, Nat.zero_testBit, BitVec.testBit_toNat]
    cases set : x.getLsbD i with
    | false => simp
    | true => simpa using (bits i set).1
  · apply Nat.lt_pow_two_of_testBit
    intro i hi
    rw [BitVec.testBit_toNat]
    cases set : x.getLsbD i with
    | false => rfl
    | true => exact absurd (bits i set).2 (by omega)

theorem Within.mono {k n k' n' : Nat} {x : Word} (field : Within k n x) (low : k' ≤ k)
    (high : n ≤ n') : Within k' n' x :=
  ⟨by
    have := Nat.mod_mod_of_dvd x.toNat (Nat.pow_dvd_pow 2 low)
    rw [field.1, Nat.zero_mod] at this
    exact this.symm,
   lt_of_lt_of_le field.2 (Nat.pow_le_pow_right (by decide) high)⟩

/-- Adding a multiple of the field's unit stays in the field while it fits. -/
theorem Within.add {k n : Nat} {x : Word} (field : Within k n x) {d : Nat}
    (hn : n ≤ 64) (unit : d % 2 ^ k = 0) (fits : x.toNat + d < 2 ^ n) :
    Within k n (x + BitVec.ofNat 64 d) ∧ (x + BitVec.ofNat 64 d).toNat = x.toNat + d := by
  have bound : 2 ^ n ≤ 2 ^ 64 := Nat.pow_le_pow_right (by decide) hn
  have value : (x + BitVec.ofNat 64 d).toNat = x.toNat + d := by
    rw [BitVec.toNat_add, BitVec.toNat_ofNat, Nat.mod_eq_of_lt (a := d) (by omega),
      Nat.mod_eq_of_lt (by omega)]
  refine ⟨⟨?_, ?_⟩, value⟩
  · rw [value, Nat.add_mod, field.1, unit]; simp
  · rw [value]; exact fits

/-- A field and a word that is clear there add up without carries. -/
theorem or_eq_add {k n : Nat} {f a : Word} (field : Within k n f)
    (clear : ∀ i, k ≤ i → i < n → a.getLsbD i = false) : f ||| a = f + a := by
  refine (BitVec.add_eq_or_of_and_eq_zero f a ?_).symm
  apply BitVec.eq_of_getLsbD_eq
  intro i _
  by_cases inside : k ≤ i ∧ i < n
  · simp [clear i inside.1 inside.2]
  · simp [field.bit (show i < k ∨ n ≤ i by omega)]

/-- Stepping a field leaves the other bits alone. -/
theorem or_add {k n : Nat} {f a : Word} (field : Within k n f) {d : Nat} (hn : n ≤ 64)
    (unit : d % 2 ^ k = 0) (fits : f.toNat + d < 2 ^ n)
    (clear : ∀ i, k ≤ i → i < n → a.getLsbD i = false) :
    (f ||| a) + BitVec.ofNat 64 d = (f + BitVec.ofNat 64 d) ||| a := by
  rw [or_eq_add field clear, or_eq_add (field.add hn unit fits).1 clear,
    BitVec.add_assoc, BitVec.add_comm a, ← BitVec.add_assoc]

theorem toNat_and_lowMask (x : Word) {k : Nat} (hk : k < 64) :
    (x &&& lowMask k).toNat = x.toNat % 2 ^ k := by
  rw [BitVec.toNat_and, toNat_lowMask hk, Nat.and_two_pow_sub_one_eq_mod]

/-- The base of a field plus the low bits of another word. -/
theorem toNat_or_low {k n : Nat} {f : Word} (field : Within k n f) (x : Word) (hk : k < 64) :
    (f ||| (x &&& lowMask k)).toNat = f.toNat + x.toNat % 2 ^ k := by
  have low := toNat_and_lowMask x hk
  have clear : ∀ i, k ≤ i → i < n → (x &&& lowMask k).getLsbD i = false := by
    intro i hi _
    simp [getLsbD_lowMask hk, show ¬ i < k by omega]
  have sum : f.toNat + x.toNat % 2 ^ k < 2 ^ 64 := by
    have top : f.toNat < 2 ^ 64 := f.isLt
    have rem : x.toNat % 2 ^ k < 2 ^ k := Nat.mod_lt _ (Nat.two_pow_pos k)
    have unit : 2 ^ k ∣ f.toNat := Nat.dvd_of_mod_eq_zero field.1
    have whole : 2 ^ k ∣ 2 ^ 64 := Nat.pow_dvd_pow 2 (by omega)
    have : f.toNat + 2 ^ k ≤ 2 ^ 64 := by
      obtain ⟨c, hc⟩ := unit
      obtain ⟨e, he⟩ := whole
      rw [hc] at top ⊢
      rw [he] at top ⊢
      have : c < e := Nat.lt_of_mul_lt_mul_left top
      calc 2 ^ k * c + 2 ^ k = 2 ^ k * (c + 1) := by ring
        _ ≤ 2 ^ k * e := Nat.mul_le_mul_left _ this
    omega
  rw [or_eq_add field clear, BitVec.toNat_add, low, Nat.mod_eq_of_lt sum]

/-- Clearing the low bits. -/
theorem toNat_and_not_lowMask (x : Word) {k : Nat} (hk : k < 64) :
    (x &&& ~~~ lowMask k).toNat = x.toNat / 2 ^ k * 2 ^ k := by
  apply Nat.eq_of_testBit_eq
  intro i
  rw [BitVec.testBit_toNat, BitVec.getLsbD_and, BitVec.getLsbD_not, getLsbD_lowMask hk,
    Nat.testBit_mul_two_pow, Nat.testBit_div_two_pow]
  by_cases low : i < k
  · simp [low, show ¬ k ≤ i by omega]
  · rw [show i - k + k = i by omega, BitVec.testBit_toNat]
    by_cases hi : i < 64
    · simp only [hi, low, decide_true, decide_false, Bool.not_false, Bool.and_true,
        show k ≤ i by omega, Bool.true_and]
    · simp only [BitVec.getLsbD_of_ge x i (by omega), Bool.false_and, Bool.and_false]

/-! ## Digits -/

/-- Two numbers have the same digits `m … m+d-1` in base `B` exactly if the
corresponding parts of their quotients agree. -/
theorem digits_agree {B : Nat} (hB : 0 < B) (x y : Nat) :
    ∀ d m : Nat, (∀ k, m ≤ k → k < m + d → x / B ^ k % B = y / B ^ k % B) ↔
      x / B ^ m % B ^ d = y / B ^ m % B ^ d
  | 0, m => by simp [Nat.mod_one]; intro k h1 h2; omega
  | d + 1, m => by
      have ih := digits_agree hB x y d (m + 1)
      have peel : ∀ z : Nat, z / B ^ m % B ^ (d + 1) =
          z / B ^ m % B + B * (z / B ^ (m + 1) % B ^ d) := by
        intro z
        rw [Nat.pow_succ' (n := d), Nat.mod_mul, Nat.div_div_eq_div_mul, ← Nat.pow_succ]
      rw [peel, peel]
      have ltx : x / B ^ m % B < B := Nat.mod_lt _ hB
      have lty : y / B ^ m % B < B := Nat.mod_lt _ hB
      constructor
      · intro agree
        rw [agree m (le_refl m) (by omega), ih.mp fun k h1 h2 => agree k (by omega) (by omega)]
      · intro eq
        have low : x / B ^ m % B = y / B ^ m % B := by
          have := congrArg (· % B) eq
          simpa [Nat.add_mul_mod_self_left, Nat.mod_eq_of_lt ltx, Nat.mod_eq_of_lt lty] using this
        have high : x / B ^ (m + 1) % B ^ d = y / B ^ (m + 1) % B ^ d := by
          rw [low] at eq
          exact Nat.eq_of_mul_eq_mul_left hB (Nat.add_left_cancel eq)
        intro k h1 h2
        rcases Nat.eq_or_lt_of_le h1 with rfl | later
        · exact low
        · exact ih.mpr high k later (by omega)

/-- Any digits are the digits of a number. -/
theorem exists_digits {B : Nat} (hB : 0 < B) (digit : Nat → Nat) (small : ∀ k, digit k < B) :
    ∀ n : Nat, ∃ y, y < B ^ n ∧ ∀ k < n, y / B ^ k % B = digit k
  | 0 => ⟨0, by simp, fun k hk => absurd hk (Nat.not_lt_zero k)⟩
  | n + 1 => by
      obtain ⟨y, bound, digits⟩ := exists_digits hB digit small n
      refine ⟨y + digit n * B ^ n, ?_, fun k hk => ?_⟩
      · calc y + digit n * B ^ n < B ^ n + digit n * B ^ n := by omega
          _ = (digit n + 1) * B ^ n := by ring
          _ ≤ B * B ^ n := Nat.mul_le_mul_right _ (small n)
          _ = B ^ (n + 1) := by ring
      · rcases Nat.lt_succ_iff_lt_or_eq.mp hk with lower | rfl
        · obtain ⟨d, rfl⟩ := Nat.exists_eq_add_of_lt lower
          have split : digit (k + d + 1) * B ^ (k + d + 1) =
              B ^ k * (B * (digit (k + d + 1) * B ^ d)) := by ring
          rw [split, Nat.add_mul_div_left _ _ (Nat.pow_pos hB), Nat.add_mul_mod_self_left]
          exact digits k lower
        · rw [Nat.add_mul_div_right _ _ (Nat.pow_pos hB), Nat.div_eq_of_lt bound, Nat.zero_add,
            Nat.mod_eq_of_lt (small k)]

/-- Testing a single bit with a mask -/
theorem and_bit_ne_zero {n : Nat} (w : BitVec n) {i : Nat} (small : i < n) : w &&& 1#n <<< i ≠ 0#n ↔ w.getLsbD i = true := by
  rw [show (1#n <<< i : BitVec n) = BitVec.twoPow n i from rfl, BitVec.and_twoPow]
  cases w.getLsbD i with
  | false => simp
  | true =>
      refine ⟨fun _ => rfl, fun _ zero => ?_⟩
      have bit := congrArg (fun x => BitVec.getLsbD x i) zero
      simp [small] at bit

end Nova.Theory.Words
