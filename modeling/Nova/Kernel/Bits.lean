/-
# Nova.Kernel.Bits — the bit operations of `inc/bits.hpp`

On machine words, with what they are as numbers: the scans find the largest power of two
below a number and the largest that divides it.
-/
import Nova.Theory.Words

namespace Nova.Kernel

open Nova.Theory.Words

set_option autoImplicit false

namespace Bits

/-- `bit_scan_reverse` -/
def bitScanReverse (v : Word) : Int := if v = 0#64 then -1 else 8 * 8 - v.clz.toNat - 1

/-- `bit_scan_forward` -/
def bitScanForward (v : Word) : Int := if v = 0#64 then -1 else v.ctz.toNat

/-- `max_order`, which returns the order as an `unsigned long` -/
def maxOrder (base size : Word) : Word :=
  let o := bitScanReverse size
  BitVec.ofInt 64 (if base ≠ 0#64 then min (bitScanForward base) o else o)

end Bits

/-- `align_dn`; `align` is a power of two. -/
def alignDn (val align : Word) : Word := val &&& ~~~ (align - 1#64)

/-- `align_up` -/
def alignUp (val align : Word) : Word := alignDn (val + (align - 1#64)) align

namespace Bits

/-- The highest bit -/
theorem bitScanReverse_eq {v : Word} (some : v ≠ 0#64) : bitScanReverse v = v.toNat.log2 := by
  have number : v.toNat ≠ 0 := fun zero => some (BitVec.eq_of_toNat_eq zero)
  have bits : v.clz.toNat < 64 := BitVec.lt_def.mp (BitVec.clz_lt_iff_ne_zero.mpr some)
  have low := BitVec.two_pow_sub_clz_le_toNat_of_ne_zero (by decide) some
  have high := @BitVec.toNat_lt_two_pow_sub_clz 64 v
  have log : v.toNat.log2 = 64 - 1 - v.clz.toNat :=
    (Nat.log2_eq_iff number).mpr ⟨low, by rwa [show 64 - 1 - v.clz.toNat + 1 = 64 - v.clz.toNat by omega]⟩
  rw [bitScanReverse, if_neg some, log]
  omega

/-- The lowest bit -/
theorem ctz_spec {v : Word} (some : v ≠ 0#64) : 2 ^ v.ctz.toNat ∣ v.toNat ∧ ¬ 2 ^ (v.ctz.toNat + 1) ∣ v.toNat := by
  constructor
  · refine Nat.dvd_of_mod_eq_zero (Nat.eq_of_testBit_eq fun i => ?_)
    rw [Nat.testBit_mod_two_pow, Nat.zero_testBit]
    by_cases low : i < v.ctz.toNat
    · rw [BitVec.testBit_toNat, BitVec.getLsbD_false_of_lt_ctz low, Bool.and_false]
    · rw [decide_eq_false low, Bool.false_and]
  · intro divides
    have set := BitVec.getLsbD_true_ctz_of_ne_zero some
    obtain ⟨c, hc⟩ := divides
    rw [← BitVec.testBit_toNat, hc, Nat.testBit_two_pow_mul, decide_eq_false (by omega), Bool.false_and] at set
    cases set

theorem toNat_alignDn (v : Word) {k : Nat} (hk : k < 64) : (alignDn v (1#64 <<< k)).toNat = v.toNat / 2 ^ k * 2 ^ k :=
  toNat_and_not_lowMask v hk

end Bits

end Nova.Kernel
