/-
# Nova.Kernel.PtabRefine — which orders an update handles

`update` computes its stride and its number of rounds with the 32-bit `BIT`, and
the level of its slots by dividing the order by the index bits.  `Handles` says
which pairs of limit and order that arithmetic serves: for those `update_spec`
holds, the refinement of a flat map from addresses to translations.  For every
other pair there is a page table on which a successful update leaves a part of
its range behind, or takes the root away.
-/
import Nova.Kernel.PtabUpdate

namespace Nova.Kernel

open Nova.Theory.Words
open Nova.Theory.Radix

set_option autoImplicit false

/-- The addresses of a range of `2^ord` pages. -/
def InRange (v : Word) (ord : Nat) (x : Word) : Prop :=
  v.toNat ≤ x.toNat ∧ x.toNat < v.toNat + 2 ^ (ord + pageBits)

/-- The orders that `update` handles under a leaf limit. -/
def Format.Handles (F : Format) (lim ord : Nat) : Prop :=
  (ord ≤ lim ∨ (lim + pageBits < 32 ∧ ord - lim < 32)) ∧ min ord lim / bpl < F.lev

instance (F : Format) (lim ord : Nat) : Decidable (F.Handles lim ord) :=
  inferInstanceAs (Decidable (_ ∧ _))

namespace Pagetable

variable {T : Pagetable}

/-- Aligned base addresses inside the input and output widths. -/
structure Request (T : Pagetable) (v p : Word) (ord : Nat) : Prop where
  v_aligned : v.toNat % 2 ^ (ord + pageBits) = 0
  v_fits : v.toNat + 2 ^ (ord + pageBits) ≤ 2 ^ (T.format.lev * bpl + pageBits)
  p_aligned : p.toNat % 2 ^ (ord + pageBits) = 0
  p_fits : p.toNat + 2 ^ (ord + pageBits) ≤ 2 ^ T.format.addrBits

/-- The translation of `x` that mapping `v` to `p` asks for. -/
def target (T : Pagetable) (v p : Word) (pm : Permissions) (ca : Cacheability) (sh : Shareability)
    (x : Word) : Translation :=
  if T.format.pageAttr 0 pm ca sh = 0#64 then none
  else some (p + (x - v), T.format.encoded pm ca sh)

section Rounds

variable (lawful : T.format.Lawful) {v p : Word} {ord lim : Nat} (request : T.Request v p ord)
  (handles : T.format.Handles lim ord)

/-- `2^o` pages are `2^(o % bpl)` slots of level `o / bpl`. -/
theorem pow_split (o : Nat) :
    2 ^ (o + pageBits) = bit32 (o % bpl) * 2 ^ (o / bpl * bpl + pageBits) := by
  have rem : o % bpl < 32 := (Nat.mod_lt o (by decide : 0 < bpl)).trans (by decide)
  rw [bit32, Nat.mod_eq_of_lt rem, ← Nat.pow_add]
  congr 1
  have := Nat.div_add_mod' o bpl
  omega

omit lawful request in
include handles in
theorem bit32_count : bit32 (ord - min ord lim) = 2 ^ (ord - min ord lim) := by
  rw [bit32, Nat.mod_eq_of_lt]
  rcases handles.1 with small | ⟨-, rounds⟩
  · omega
  · omega

omit lawful request in
include handles in
/-- The rounds partition the range. -/
theorem rounds_total : bit32 (ord - min ord lim) * 2 ^ (min ord lim + pageBits) =
    2 ^ (ord + pageBits) := by
  rw [bit32_count handles, ← Nat.pow_add]
  congr 1
  omega

omit lawful request in
include handles in
/-- The base of a round, for a base address with room for the whole range. -/
theorem toNat_nth (w : Word) (room : w.toNat + 2 ^ (ord + pageBits) ≤ 2 ^ 64) {i : Nat}
    (hi : i < bit32 (ord - min ord lim)) :
    (nth (BitVec.ofNat 64 (bit32 (min ord lim + pageBits))) w i).toNat =
      w.toNat + i * 2 ^ (min ord lim + pageBits) := by
  have before : i * 2 ^ (min ord lim + pageBits) + 2 ^ (min ord lim + pageBits) ≤
      2 ^ (ord + pageBits) := by
    rw [← rounds_total handles, ← Nat.succ_mul]
    exact Nat.mul_le_mul_right _ hi
  have pos : 0 < 2 ^ (min ord lim + pageBits) := Nat.two_pow_pos _
  rcases handles.1 with small | ⟨narrow, -⟩
  · have single : i = 0 := by
      rw [bit32_count handles, Nat.min_eq_left small] at hi
      simpa using hi
    subst single
    rw [nth_zero]
    simp
  · have stride : bit32 (min ord lim + pageBits) = 2 ^ (min ord lim + pageBits) := by
      rw [bit32, Nat.mod_eq_of_lt]
      have := Nat.min_le_right ord lim
      omega
    have product : BitVec.ofNat 64 i * BitVec.ofNat 64 (2 ^ (min ord lim + pageBits)) =
        BitVec.ofNat 64 (i * 2 ^ (min ord lim + pageBits)) := by
      rw [BitVec.ofNat_mul]
    rw [nth, stride, product, BitVec.toNat_add, BitVec.toNat_ofNat,
      Nat.mod_eq_of_lt (a := i * _) (by omega), Nat.mod_eq_of_lt (by omega)]

include lawful request handles

/-- Bases and alignment of a round. -/
theorem round_base {i : Nat} (hi : i < bit32 (ord - min ord lim)) :
    (nth (BitVec.ofNat 64 (bit32 (min ord lim + pageBits))) v i).toNat =
        v.toNat + i * 2 ^ (min ord lim + pageBits) ∧
      (nth (BitVec.ofNat 64 (bit32 (min ord lim + pageBits))) p i).toNat =
        p.toNat + i * 2 ^ (min ord lim + pageBits) ∧
      (v.toNat + i * 2 ^ (min ord lim + pageBits)) % 2 ^ (min ord lim + pageBits) = 0 ∧
      (p.toNat + i * 2 ^ (min ord lim + pageBits)) % 2 ^ (min ord lim + pageBits) = 0 ∧
      i * 2 ^ (min ord lim + pageBits) + 2 ^ (min ord lim + pageBits) ≤ 2 ^ (ord + pageBits) := by
  have width : 2 ^ (T.format.lev * bpl + pageBits) ≤ 2 ^ 64 :=
    Nat.pow_le_pow_right (by decide) (lawful.bits_lt (le_refl _)).le
  have outWidth : 2 ^ T.format.addrBits ≤ 2 ^ 64 :=
    Nat.pow_le_pow_right (by decide) (lawful.addr_fits.trans (by decide))
  have unit : 2 ^ (min ord lim + pageBits) ∣ 2 ^ (ord + pageBits) :=
    Nat.pow_dvd_pow 2 (by have := Nat.min_le_left ord lim; omega)
  refine ⟨toNat_nth handles v (request.v_fits.trans width) hi,
    toNat_nth handles p (request.p_fits.trans outWidth) hi, ?_, ?_, ?_⟩
  · rw [Nat.add_mul_mod_self_right]
    exact Nat.mod_eq_zero_of_dvd (unit.trans (Nat.dvd_of_mod_eq_zero request.v_aligned))
  · rw [Nat.add_mul_mod_self_right]
    exact Nat.mod_eq_zero_of_dvd (unit.trans (Nat.dvd_of_mod_eq_zero request.p_aligned))
  · rw [← rounds_total handles, ← Nat.succ_mul]
    exact Nat.mul_le_mul_right _ hi

omit lawful request handles in
/-- An aligned chunk of `2^o` pages is a row of slots of one table. -/
theorem covered_iff {o : Nat} {w : Word} (aligned : w.toNat % 2 ^ (o + pageBits) = 0) (x : Word) :
    block (o / bpl) w * 2 ^ (o / bpl * bpl + pageBits) = w.toNat ∧
      block (o / bpl) w % entries + bit32 (o % bpl) ≤ entries ∧
      (Covered (o / bpl) (bit32 (o % bpl)) w x ↔ InRange w o x) := by
  have pos : 0 < 2 ^ (o / bpl * bpl + pageBits) := Nat.two_pow_pos _
  obtain ⟨c, hc⟩ := Nat.dvd_of_mod_eq_zero aligned
  rw [pow_split o] at hc
  have index : block (o / bpl) w = bit32 (o % bpl) * c := by
    rw [block, hc, Nat.mul_right_comm, Nat.mul_div_cancel _ pos]
  have base : block (o / bpl) w * 2 ^ (o / bpl * bpl + pageBits) = w.toNat := by
    rw [index, hc, Nat.mul_right_comm]
  refine ⟨base, ?_, ?_⟩
  · -- the number of slots divides the number of entries
    have rem : o % bpl < bpl := Nat.mod_lt o (by decide)
    have whole : entries = bit32 (o % bpl) * 2 ^ (bpl - o % bpl) := by
      rw [bit32, Nat.mod_eq_of_lt (rem.trans (by decide)), ← Nat.pow_add,
        Nat.add_sub_cancel' rem.le]
      rfl
    rw [index, whole, Nat.mul_mod_mul_left, ← Nat.mul_succ]
    exact Nat.mul_le_mul_left _ (Nat.mod_lt _ (Nat.two_pow_pos _))
  · have upper : w.toNat + 2 ^ (o + pageBits) =
        (block (o / bpl) w + bit32 (o % bpl)) * 2 ^ (o / bpl * bpl + pageBits) := by
      rw [Nat.add_mul, base, pow_split o]
    unfold Covered InRange
    rw [upper, block.eq_1 _ x, Nat.le_div_iff_mul_le pos, Nat.div_lt_iff_lt_mul pos, base]

/-- Every round fits and writes stable leaves. -/
theorem rounds_good {i : Nat} (hi : i < bit32 (ord - min ord lim)) (pm : Permissions)
    (ca : Cacheability) (sh : Shareability) :
    T.Round (min ord lim / bpl) (bit32 (min ord lim % bpl))
        (T.format.pageAttr (min ord lim / bpl) pm ca sh)
        (nth (BitVec.ofNat 64 (bit32 (min ord lim + pageBits))) v i)
        (nth (BitVec.ofNat 64 (bit32 (min ord lim + pageBits))) p i) ∧
      T.StableRound (min ord lim / bpl) (bit32 (min ord lim % bpl))
        (T.format.pageAttr (min ord lim / bpl) pm ca sh)
        (nth (BitVec.ofNat 64 (bit32 (min ord lim + pageBits))) p i) ∧
      ∀ x, Covered (min ord lim / bpl) (bit32 (min ord lim % bpl))
          (nth (BitVec.ofNat 64 (bit32 (min ord lim + pageBits))) v i) x →
        T.written (min ord lim / bpl) (T.format.pageAttr (min ord lim / bpl) pm ca sh)
          (nth (BitVec.ofNat 64 (bit32 (min ord lim + pageBits))) v i)
          (nth (BitVec.ofNat 64 (bit32 (min ord lim + pageBits))) p i) x =
          T.target v p pm ca sh x := by
  obtain ⟨hv, hp, alignedV, alignedP, room⟩ := round_base lawful request handles hi
  generalize nth (BitVec.ofNat 64 (bit32 (min ord lim + pageBits))) v i = vi at hv ⊢
  generalize nth (BitVec.ofNat 64 (bit32 (min ord lim + pageBits))) p i = pi at hp ⊢
  have hl := handles.2
  generalize min ord lim = o at *
  have vfits := request.v_fits
  have pfits := request.p_fits
  have split := pow_split o
  rw [← hv] at alignedV
  rw [← hp] at alignedP
  -- the frames of the round
  have frame : T.format.Frame (o / bpl) pi := by
    refine ⟨?_, by have := Nat.two_pow_pos (o + pageBits); omega⟩
    obtain ⟨c, hc⟩ := Nat.dvd_of_mod_eq_zero alignedP
    rw [hc, split, Nat.mul_right_comm]
    exact Nat.mul_mod_left _ _
  have fits : ∀ j < bit32 (o % bpl),
      pi.toNat + j * 2 ^ (o / bpl * bpl + pageBits) < 2 ^ T.format.addrBits := by
    intro j hj
    have := Nat.mul_lt_mul_of_pos_right hj (Nat.two_pow_pos (o / bpl * bpl + pageBits))
    omega
  have leaf : ∀ j < bit32 (o % bpl), T.format.pageAttr (o / bpl) pm ca sh ≠ 0#64 →
      roundEntry (o / bpl) (T.format.pageAttr (o / bpl) pm ca sh) pi j =
        (pi + BitVec.ofNat 64 (j * 2 ^ (o / bpl * bpl + pageBits))) |||
          T.format.pageAttr (o / bpl) pm ca sh := by
    intro j hj ne
    rw [roundEntry, if_pos ne]
    exact (lawful.leaf_step hl frame pm ca sh (fits j hj)).1
  obtain ⟨base, row, -⟩ := covered_iff alignedV vi
  refine ⟨⟨⟨?_, fun _ => hl, row, ?_⟩, fun ne j hj => ?_⟩, fun ne j hj => ?_, fun x covered => ?_⟩
  · have := Nat.two_pow_pos (o + pageBits)
    rw [Inside]
    omega
  · rw [Nat.add_mul, base, ← split]
    omega
  · rw [leaf j hj ne]
    exact (lawful.leaf_good hl (lawful.leaf_step hl frame pm ca sh (fits j hj)).2.1 ne).1
  · rw [leaf j hj ne]
    exact (lawful.leaf_good hl (lawful.leaf_step hl frame pm ca sh (fits j hj)).2.1 ne).2.1
  · by_cases zap : T.format.pageAttr (o / bpl) pm ca sh = 0#64
    · rw [written, target, if_pos (lawful.attr_zero _ 0 _ _ _ zap)]
      simp [roundEntry, zap, entryFind, translate_hole]
    · have encodes : T.format.pageAttr 0 pm ca sh ≠ 0#64 := fun zero =>
        zap (lawful.attr_zero 0 _ _ _ _ zero)
      have hj : block (o / bpl) x - block (o / bpl) vi < bit32 (o % bpl) := by
        have := covered.1; have := covered.2; omega
      obtain ⟨-, frame', value⟩ := lawful.leaf_step hl frame pm ca sh (fits _ hj)
      obtain ⟨good, -, addr, decoded⟩ := lawful.leaf_good hl frame' zap
      rw [written, target, if_neg encodes, leaf _ hj zap, entryFind,
        if_neg (Format.kind_leaf_iff.mp good.leaf).1, Format.translate, addr, decoded]
      refine congrArg (fun q => some (q, T.format.encoded pm ca sh)) (BitVec.eq_of_toNat_eq ?_)
      -- block and offset of `x` add up to its distance from the base
      have whole := Nat.div_add_mod x.toNat (2 ^ (o / bpl * bpl + pageBits))
      have distance : (block (o / bpl) x - block (o / bpl) vi) * 2 ^ (o / bpl * bpl + pageBits) +
          x.toNat % 2 ^ (o / bpl * bpl + pageBits) = x.toNat - vi.toNat := by
        rw [Nat.sub_mul, base, block.eq_1 _ x, Nat.mul_comm (x.toNat / _)]
        have := Nat.mul_le_mul_right (2 ^ (o / bpl * bpl + pageBits)) covered.1
        rw [base, block.eq_1 _ x, Nat.mul_comm (x.toNat / _)] at this
        omega
      obtain ⟨low, high⟩ := (covered_iff alignedV x).2.2.mp covered
      have fit64 : 2 ^ T.format.addrBits ≤ 2 ^ 64 :=
        Nat.pow_le_pow_right (by decide) (lawful.addr_fits.trans (by decide))
      rw [offsMask, toNat_or_low frame' x (lawful.bits_lt hl.le), value, Nat.add_assoc, distance,
        BitVec.toNat_add, BitVec.toNat_sub]
      have := x.isLt
      have := v.isLt
      omega

/-- The chunk of a round -/
theorem round_covered {i : Nat} (hi : i < bit32 (ord - min ord lim)) (x : Word) :
    Covered (min ord lim / bpl) (bit32 (min ord lim % bpl))
        (nth (BitVec.ofNat 64 (bit32 (min ord lim + pageBits))) v i) x ↔
      v.toNat + i * 2 ^ (min ord lim + pageBits) ≤ x.toNat ∧
        x.toNat < v.toNat + i * 2 ^ (min ord lim + pageBits) + 2 ^ (min ord lim + pageBits) := by
  obtain ⟨hv, -, aligned, -⟩ := round_base lawful request handles hi
  rw [← hv] at aligned ⊢
  exact (covered_iff aligned x).2.2

/-- The round that covers an address of the first `k` chunks, and no other. -/
theorem round_of {k : Nat} (le : k ≤ bit32 (ord - min ord lim)) {x : Word} (low : v.toNat ≤ x.toNat)
    (high : x.toNat < v.toNat + k * 2 ^ (min ord lim + pageBits)) : ∃ i < k,
      Covered (min ord lim / bpl) (bit32 (min ord lim % bpl))
        (nth (BitVec.ofNat 64 (bit32 (min ord lim + pageBits))) v i) x ∧
      ∀ j < k, Covered (min ord lim / bpl) (bit32 (min ord lim % bpl))
        (nth (BitVec.ofNat 64 (bit32 (min ord lim + pageBits))) v j) x → j = i := by
  have pos : 0 < 2 ^ (min ord lim + pageBits) := Nat.two_pow_pos _
  have split := Nat.div_add_mod (x.toNat - v.toNat) (2 ^ (min ord lim + pageBits))
  have rem := Nat.mod_lt (x.toNat - v.toNat) pos
  rw [Nat.mul_comm] at split
  have hi : (x.toNat - v.toNat) / 2 ^ (min ord lim + pageBits) < k := by
    rw [Nat.div_lt_iff_lt_mul pos]
    omega
  refine ⟨_, hi, (round_covered lawful request handles (by omega) x).mpr ⟨by omega, by omega⟩, fun j hj again => ?_⟩
  obtain ⟨low', high'⟩ := (round_covered lawful request handles (by omega) x).mp again
  refine (Nat.div_eq_of_lt_le ?_ ?_).symm
  · omega
  · rw [Nat.succ_mul]
    omega

end Rounds

/-! ## Any order -/

theorem fits_one {l : Nat} (hl : l ≤ T.format.lev) {v : Word} (inside : T.Inside v) :
    T.Fits l 1 v := by
  refine ⟨inside, fun h => absurd h (lt_irrefl 1), Nat.mod_lt _ (by decide), ?_⟩
  have whole : 2 ^ (T.format.lev * bpl + pageBits) =
      entries ^ (T.format.lev - l) * 2 ^ (l * bpl + pageBits) := by
    rw [pow_block, pow_block l, Nat.mul_left_comm, ← Nat.pow_add, Nat.sub_add_cancel hl]
  rw [whole]
  exact Nat.mul_le_mul_right _ (inside.block_lt hl)

theorem bit32_le (b : Nat) : bit32 b ≤ 2 ^ b := Nat.pow_le_pow_right (by decide) (Nat.mod_le _ _)

/-- Whatever its order, the rounds of an update start inside its range. -/
theorem nth_room {ord lim : Nat} {w : Word} (room : w.toNat + 2 ^ (ord + pageBits) ≤ 2 ^ 64)
    {i : Nat} (hi : i < bit32 (ord - min ord lim)) :
    (nth (BitVec.ofNat 64 (bit32 (min ord lim + pageBits))) w i).toNat =
        w.toNat + i * bit32 (min ord lim + pageBits) ∧
      i * bit32 (min ord lim + pageBits) < 2 ^ (ord + pageBits) := by
  have short : i * bit32 (min ord lim + pageBits) < 2 ^ (ord + pageBits) := by
    calc i * bit32 (min ord lim + pageBits)
        < 2 ^ (ord - min ord lim) * bit32 (min ord lim + pageBits) :=
          Nat.mul_lt_mul_of_pos_right (hi.trans_le (bit32_le _)) (Nat.two_pow_pos _)
      _ ≤ 2 ^ (ord - min ord lim) * 2 ^ (min ord lim + pageBits) :=
          Nat.mul_le_mul_left _ (bit32_le _)
      _ = 2 ^ (ord + pageBits) := by
          rw [← Nat.pow_add]
          congr 1
          omega
  refine ⟨?_, short⟩
  rw [nth, ← BitVec.ofNat_mul, BitVec.toNat_add, BitVec.toNat_ofNat,
    Nat.mod_eq_of_lt (a := i * _) (by omega), Nat.mod_eq_of_lt (by omega)]

/-- The frames of the rounds stay clear of the attributes that tell leaves from tables. -/
theorem nth_within (lawful : T.format.Lawful) {v p : Word} {ord k : Nat}
    (request : T.Request v p ord) (hk : k ≤ 3) {i : Nat}
    (hi : i < bit32 (ord - min ord (k * bpl))) :
    Within 7 T.format.addrBits (nth (BitVec.ofNat 64 (bit32 (min ord (k * bpl) + pageBits))) p i) := by
  have outWidth : 2 ^ T.format.addrBits ≤ 2 ^ 64 :=
    Nat.pow_le_pow_right (by decide) (lawful.addr_fits.trans (by decide))
  have pfits := request.p_fits
  obtain ⟨hp, short⟩ := nth_room (pfits.trans outWidth) hi
  have base : 2 ^ 7 ∣ p.toNat := (Nat.pow_dvd_pow 2 (by simp only [pageBits]; omega)).trans
    (Nat.dvd_of_mod_eq_zero request.p_aligned)
  refine ⟨?_, by rw [hp]; omega⟩
  rw [hp]
  refine Nat.mod_eq_zero_of_dvd (Nat.dvd_add base ?_)
  by_cases le : k * bpl ≤ ord
  · rw [Nat.min_eq_right le]
    have stride : ∀ k ≤ 3, 7 ≤ (k * bpl + pageBits) % 32 := by decide
    exact Dvd.dvd.mul_left (Nat.pow_dvd_pow 2 (stride k hk)) i
  · -- a single round
    rw [Nat.min_eq_left (by omega), Nat.sub_self] at hi
    obtain rfl : i = 0 := by simpa [bit32] using hi
    rw [Nat.zero_mul]
    exact Nat.dvd_zero _

/-- The orders that are not handled have one slot to a round. -/
theorem handles_or_one (F : Format) {ord k : Nat} (hk : k ≤ F.lev) :
    F.Handles (k * bpl) ord ∨ bit32 (min ord (k * bpl) % bpl) = 1 := by
  by_cases le : k * bpl ≤ ord
  · right
    rw [Nat.min_eq_right le, Nat.mul_mod_left]
    rfl
  · left
    simp only [Format.Handles, bpl, pageBits] at le ⊢
    omega

/-- The first entry of a round. -/
theorem roundEntry_zero {l : Nat} {a : Word} (ne : a ≠ 0#64) (p : Word) :
    roundEntry l a p 0 = p ||| a := by
  simp [roundEntry, ne]

/-- Every update keeps the page table well-formed, also of an order that is not
handled, as long as it does not write a leaf in place of the root. -/
theorem rounds_keep (lawful : T.format.Lawful) {v p : Word} {ord k : Nat}
    (request : T.Request v p ord) (hk : k ≤ 3) (top : k ≤ T.format.lev) (pm : Permissions)
    (ca : Cacheability) (sh : Shareability)
    (below : T.format.pageAttr (min ord (k * bpl) / bpl) pm ca sh ≠ 0#64 →
      min ord (k * bpl) / bpl < T.format.lev)
    {i : Nat} (hi : i < bit32 (ord - min ord (k * bpl))) :
    T.Round (min ord (k * bpl) / bpl) (bit32 (min ord (k * bpl) % bpl))
      (T.format.pageAttr (min ord (k * bpl) / bpl) pm ca sh)
      (nth (BitVec.ofNat 64 (bit32 (min ord (k * bpl) + pageBits))) v i)
      (nth (BitVec.ofNat 64 (bit32 (min ord (k * bpl) + pageBits))) p i) := by
  by_cases handles : T.format.Handles (k * bpl) ord
  · exact (rounds_good lawful request handles hi pm ca sh).1
  · -- what is not handled has one slot to a round
    have width : 2 ^ (T.format.lev * bpl + pageBits) ≤ 2 ^ 64 :=
      Nat.pow_le_pow_right (by decide) (lawful.bits_lt (le_refl _)).le
    obtain ⟨hv, shortV⟩ := nth_room (request.v_fits.trans width) hi
    have vfits := request.v_fits
    have level : min ord (k * bpl) / bpl ≤ T.format.lev := by
      simp only [bpl]
      omega
    rw [(handles_or_one T.format top).resolve_left handles]
    refine ⟨fits_one level (by rw [Inside]; omega), fun ne j hj => ?_⟩
    obtain rfl : j = 0 := by omega
    rw [roundEntry_zero ne]
    exact lawful.leaf_or (below ne) (nth_within lawful request hk hi) ne

/-- **What an update does**, for the orders that it handles: the range takes the
new translation, everything else keeps its own. -/
theorem update_spec (lawful : T.format.Lawful) {s s' : State} (wf : T.WF s) (exact_ : T.Exact s)
    {v p : Word} {ord lim : Nat} (request : T.Request v p ord) (handles : T.format.Handles lim ord)
    {pm : Permissions} {ca : Cacheability} {sh : Shareability} {res : Status}
    (run : T.update lim v p ord pm ca sh s = (res, s')) :
    (res = .success ∨ res = .insMem) ∧ T.WF s' ∧ T.Exact s' ∧ T.Frames s s' ∧
      ∀ x, T.Inside x →
        (¬ InRange v ord x → T.Untouched s s' x) ∧
        (InRange v ord x → (res = .success → T.translation s' x = T.target v p pm ca sh x) ∧
          (T.translation s' x = T.translation s x ∨
            T.translation s' x = T.target v p pm ca sh x)) := by
  have rounds := fun i (hi : i < bit32 (ord - min ord lim)) =>
    rounds_good lawful request handles hi pm ca sh
  have effect := updateLoop_spec lawful handles.2.le _ v p s res s' wf
    (fun i hi => (rounds i hi).1) run
  have stable := fun i hi => (rounds i hi).2.1
  refine ⟨effect.status, effect.wf, effect.exact_ exact_ stable, effect.frames, fun x hx =>
    ⟨fun out => effect.outside exact_ stable x hx fun i hi covered => out ?_, fun inRange => ?_⟩⟩
  · have room := (round_base lawful request handles hi).2.2.2.2
    have := (round_covered lawful request handles hi x).mp covered
    exact ⟨by omega, by omega⟩
  · have high := inRange.2
    rw [← rounds_total handles] at high
    obtain ⟨i, hi, covered, unique⟩ := round_of lawful request handles (le_refl _) inRange.1 high
    obtain ⟨success, either⟩ := effect.covered exact_ stable x hx i hi covered unique
    rw [(rounds i hi).2.2 x covered] at success either
    exact ⟨success, either⟩

/-- A step moves the end of a search down, or to the level of the slots it writes. -/
theorem Edit.level (lawful : T.format.Lawful) {I : Word → Nat → Prop} {l : Nat} {s s' : State}
    (wf : T.WF s) (edit : T.Edit I (fun _ m _ => m = l) s s') (x : Word) :
    (T.find s' x).1 ≤ max (T.find s x).1 l := by
  cases edit with
  | link link =>
      rcases link.find_cases lawful wf x with same | ⟨v, m, -, -, -, before, after⟩
      · rw [same]
        exact Nat.le_max_left _ _
      · rw [before, after]
        exact (Nat.sub_le m 1).trans (Nat.le_max_left _ _)
  | exchange u m r e slot inside writable known =>
      subst known
      obtain ⟨through, past⟩ := find_exchange_slot wf slot writable x
      by_cases same : T.SameSlot m x u
      · rw [through same]
        exact Nat.le_max_right _ _
      · rw [past same]
        exact Nat.le_max_left _ _

/-- Slots of level `m` and above that hold a table keep it, and no leaf gets there. -/
structure Steady (T : Pagetable) (m : Nat) (s s' : State) : Prop where
  tables : ∀ k v r p, m ≤ k → T.slotAt s v k = some r → T.format.kind k (s.load r) = .table p →
    T.slotAt s' v k = some r ∧ s'.load r = s.load r
  leaves : (T.tree s).AllLeaves (fun l _ => l < m) T.format.lev →
    (T.tree s').AllLeaves (fun l _ => l < m) T.format.lev

theorem Steady.refl (m : Nat) (s : State) : T.Steady m s s :=
  ⟨fun _ _ _ _ _ slot _ => ⟨slot, rfl⟩, id⟩

theorem Steady.trans {m : Nat} {s s' s'' : State} (first : T.Steady m s s')
    (second : T.Steady m s' s'') : T.Steady m s s'' := by
  refine ⟨fun k v r p high slot table => ?_, fun low => second.leaves (first.leaves low)⟩
  obtain ⟨slot', same⟩ := first.tables k v r p high slot table
  obtain ⟨slot'', same'⟩ := second.tables k v r p high slot' (same ▸ table)
  exact ⟨slot'', same'.trans same⟩

theorem WF.slot_level {s : State} (wf : T.WF s) {v v' : Word} {k k' : Nat} {r : Slot Word entries}
    (slot : T.slotAt s v k = some r) (slot' : T.slotAt s v' k' = some r) : k = k' :=
  slotOf_level wf.nodup wf.root_apart slot slot'

/-- A step below level `m` leaves the tables from there on in place. -/
theorem Edit.steady (lawful : T.format.Lawful) {I : Word → Nat → Prop} {l m : Nat} (below : l < m)
    {s s' : State} (wf : T.WF s) (edit : T.Edit I (fun _ k _ => k = l) s s') : T.Steady m s s' := by
  cases edit with
  | link link =>
      refine ⟨fun k v r p high slot table => ⟨link.slotAt lawful wf slot, ?_⟩, fun low => ?_⟩
      · cases link with
        | answer supply race sub => rfl
        | install v' m' r' page slot' pos bare usable known =>
            rw [load_install m' r' _ usable (wf.slot_live slot), if_neg]
            rintro rfl
            exact bare p (wf.slot_level slot slot' ▸ table)
        | lose page p size usable => exact (tree_construct wf usable.2.2 p size).2.2 r (wf.slot_live slot)
      · cases link with
        | answer supply race sub => exact low
        | install v' m' r' page slot' pos bare usable known =>
            rw [tree_install lawful wf slot' pos bare usable]
            refine Tree.allLeaves_modify _ _ ?_ _ _ low
            intro i
            unfold fragment
            split
            · trivial
            · have leaf := Tree.allLeaves_subAt _ _ (reaches_slot slot') low
              rw [subAt_slot slot', treeOf_leaf _ (leaf_of_bare bare ‹_›)] at leaf
              exact lt_of_le_of_lt (Nat.sub_le m' 1) leaf
        | lose page p size usable =>
            have same : T.tree (((s.take page).construct page p size).free page) = T.tree s :=
              (tree_construct wf usable.2.2 p size).1
            rw [same]
            exact low
  | exchange u l' r' e slot' inside writable known =>
      subst known
      refine ⟨fun k v r p high slot table => ⟨?_, ?_⟩, fun low => ?_⟩
      · exact slotAt_exchange wf slot' writable (below.le.trans high) slot
      · rw [load_exchange, if_neg]
        rintro rfl
        have := wf.slot_level slot slot'
        omega
      · rw [tree_exchange wf slot' writable]
        refine Tree.allLeaves_modify _ _ ?_ _ _ low
        unfold entryTree
        split
        · trivial
        · exact below

section Update

variable (lawful : T.format.Lawful) {s : State} (wf : T.WF s) {v p : Word} {ord lim : Nat}
  (pm : Permissions) (ca : Cacheability) (sh : Shareability) (level : min ord lim / bpl ≤ T.format.lev)
  (rounds : ∀ i < bit32 (ord - min ord lim),
    T.Round (min ord lim / bpl) (bit32 (min ord lim % bpl))
      (T.format.pageAttr (min ord lim / bpl) pm ca sh)
      (nth (BitVec.ofNat 64 (bit32 (min ord lim + pageBits))) v i)
      (nth (BitVec.ofNat 64 (bit32 (min ord lim + pageBits))) p i))
include lawful wf level rounds

/-- An update exchanges slots of one level. -/
theorem update_edits : T.Edits Anywhere (fun _ m _ => m = min ord lim / bpl) s
    (T.update lim v p ord pm ca sh s).2 :=
  updateLoop_edits lawful level _ v p s _ _ wf (raced_anywhere s) rounds (fun _ _ _ _ => trivial)
    (fun _ _ _ _ _ _ _ => rfl) rfl

/-- After an update no search ends higher than before or than the level written. -/
theorem update_level (x : Word) :
    (T.find (T.update lim v p ord pm ca sh s).2 x).1 ≤ max (T.find s x).1 (min ord lim / bpl) := by
  refine (Edits.keep lawful (Q := fun a => (T.find a x).1 ≤ max (T.find s x).1 (min ord lim / bpl))
    (fun a b wf edit before => ?_) wf (update_edits lawful wf pm ca sh level rounds)
    (Nat.le_max_left _ _)).2
  exact (edit.level lawful wf x).trans (max_le before (Nat.le_max_right _ _))

/-- An update leaves the tables above the level written in place. -/
theorem update_steady {m : Nat} (below : min ord lim / bpl < m) :
    T.Steady m s (T.update lim v p ord pm ca sh s).2 :=
  (Edits.keep lawful (Q := fun a => T.Steady m s a)
    (fun _ _ wf edit before => before.trans (edit.steady lawful below wf)) wf
    (update_edits lawful wf pm ca sh level rounds) (.refl m s)).2

end Update

/-! ## The refinement, in terms of `lookup` -/

/-- Equal but for the order. -/
def Lookup.Agrees (a b : Lookup) : Prop := a.pm = b.pm ∧ a.p = b.p ∧ a.ca = b.ca ∧ a.sh = b.sh

/-- What a lookup makes of a translation. -/
def Lookup.ofTranslation (o : Nat) (ca : Cacheability) (sh : Shareability) : Translation → Lookup
  | none => { pm := .none, p := 0#64, o, ca, sh }
  | some (p, pm, ca, sh) => { pm, p, o, ca, sh }

theorem lookup_translation (lawful : T.format.Lawful) (s : State) (x : Word) (ca : Cacheability)
    (sh : Shareability) : T.lookup x ca sh s =
      Lookup.ofTranslation ((T.find s x).1 * bpl) ca sh (T.translation s x) := by
  rw [lookup_eq lawful, translation]
  generalize T.find s x = found
  obtain ⟨l, _ | e⟩ := found <;> rfl

theorem Lookup.agrees_of_translation (o o' : Nat) (ca : Cacheability) (sh : Shareability)
    (t : Translation) :
    (Lookup.ofTranslation o ca sh t).Agrees (Lookup.ofTranslation o' ca sh t) := by
  cases t <;> exact ⟨rfl, rfl, rfl, rfl⟩

end Pagetable

/-- The value of `lim` after calls of `set_leaf_max`. -/
def Format.limit (F : Format) (args : List Nat) : Nat := args.foldl setLeafMax F.leafMax

/-- `update` and `lookup` refine a map: on every well-formed page table of the
format, after an update of order `ord` that returned `SUCCESS`, a lookup in the
range yields the new frame with the attributes that were encoded, or a hole if
none were, and a lookup elsewhere yields what it yielded before, the order apart. -/
def UpdateRefines (F : Format) (lim ord : Nat) : Prop :=
  ∀ (T : Pagetable) (s s' : State) (v p : Word) (pm : Permissions) (ca : Cacheability)
    (sh : Shareability), T.format = F → T.WF s → T.Exact s → T.Request v p ord →
    T.update lim v p ord pm ca sh s = (.success, s') →
    ∀ x, T.Inside x → ∀ ca' sh',
      (InRange v ord x →
        if F.pageAttr (min ord lim / bpl) pm ca sh = 0#64 then
          (T.lookup x ca' sh' s').Agrees { pm := .none, p := 0#64, o := 0, ca := ca', sh := sh' }
        else
          (T.lookup x ca' sh' s').Agrees
            { pm := F.pagePm (F.pageAttr (min ord lim / bpl) pm ca sh)
              p := p + (x - v)
              o := 0
              ca := F.pageCa (min ord lim / bpl) (F.pageAttr (min ord lim / bpl) pm ca sh)
              sh := F.pageSh (F.pageAttr (min ord lim / bpl) pm ca sh) }) ∧
      (¬ InRange v ord x → (T.lookup x ca' sh' s').Agrees (T.lookup x ca' sh' s))

theorem updateRefines_of_handles {F : Format} (lawful : F.Lawful) {lim ord : Nat}
    (handles : F.Handles lim ord) : UpdateRefines F lim ord := by
  intro T s s' v p pm ca sh fmt wf exact_ request run x hx ca' sh'
  subst fmt
  obtain ⟨-, -, -, -, effect⟩ := Pagetable.update_spec lawful wf exact_ request handles run
  obtain ⟨outside, inside⟩ := effect x hx
  rw [Pagetable.lookup_translation lawful, Pagetable.lookup_translation lawful]
  refine ⟨fun inRange => ?_, fun out => ?_⟩
  · rw [(inside inRange).1 rfl, Pagetable.target]
    split
    · rename_i zero
      rw [if_pos (lawful.attr_zero _ 0 _ _ _ zero)]
      exact ⟨rfl, rfl, rfl, rfl⟩
    · rename_i ne
      rw [if_neg fun zero => ne (lawful.attr_zero 0 _ _ _ _ zero),
        ← lawful.decode_level _ pm ca sh ne]
      exact ⟨rfl, rfl, rfl, rfl⟩
  · rw [(outside out).1]
    exact Pagetable.Lookup.agrees_of_translation _ _ _ _ _

/-! ## Orders beyond that -/

section Far

variable {F : Format} (lawful : F.Lawful) (four : F.lev = 4)

/-- A page table of four levels with one leaf, of level 3, in slot 1 of its root table. -/
def farTable (F : Format) : Pagetable := { format := F, root := (0x1000#64, 0) }

def farState (F : Format) : State where
  mem page i :=
    if page = 0x1000#64 ∧ i = 0 then 0x2000#64
    else if page = 0x2000#64 ∧ i = 1 then F.pageAttr 3 { r := true } 0#3 0#2
    else 0#64
  live := [0x1000#64, 0x2000#64]
  pending := []
  supply := []
  race := []
  obtained := []
  waited := []
  freed := []

/-- The address of the leaf. -/
def farAddr : Word := 0x8000000000#64

def farTree (F : Format) : Tree Word Word entries :=
  .table 0x2000#64 fun i => if i = 1 then .leaf (F.pageAttr 3 { r := true } 0#3 0#2) else .hole

theorem far_root : (farState F).load (farTable F).root = 0x2000#64 := by
  simp [State.load, farState, farTable]

theorem far_slot (i : Fin entries) : (farState F).mem 0x2000#64 i =
    if i = 1 then F.pageAttr 3 { r := true } 0#3 0#2 else 0#64 := by
  simp [farState]

include lawful four

theorem far_entry : F.kind 4 0x2000#64 = .table 0x2000#64 ∧ F.isLarge 4 0x2000#64 = false := by
  have := Pagetable.kind_tableEntry (T := farTable F) lawful (m := 4) (by decide)
    (by simp [farTable, four]) (show 0x2000#64 ≠ 0#64 by decide) (by decide)
  simpa [Pagetable.tableEntry, farTable, four] using this

theorem far_leaf : F.GoodLeaf 3 (F.pageAttr 3 { r := true } 0#3 0#2) ∧
    F.StableLeaf 3 (F.pageAttr 3 { r := true } 0#3 0#2) := by
  have frame : F.Frame 3 0#64 := ⟨by simp, by simp⟩
  obtain ⟨good, stable, -⟩ := lawful.leaf_good (l := 3) (by omega) frame (lawful.attr_read 3 0#3 0#2)
  simp only [BitVec.zero_or] at good stable
  exact ⟨good, stable⟩

theorem far_tree : (farTable F).tree (farState F) = farTree F := by
  unfold Pagetable.tree
  rw [far_root]
  show treeOf F.kind (farState F).mem F.lev 0x2000#64 = farTree F
  rw [four, treeOf_table _ (far_entry lawful four).1, farTree]
  congr 1
  funext i
  rw [far_slot]
  split
  · exact treeOf_leaf _ (far_leaf lawful four).1.leaf
  · exact treeOf_hole _ (Format.kind_zero F 3)

omit lawful four in
theorem far_pages : (farTree F).pages = [0x2000#64] := by
  rw [farTree, Tree.pages, List.flatMap_eq_nil_iff.mpr]
  intro i _
  split <;> rfl

omit lawful four in
theorem far_allLeaves {Q : Nat → Word → Prop} (leaf : Q 3 (F.pageAttr 3 { r := true } 0#3 0#2)) :
    (farTree F).AllLeaves Q 4 := by
  intro i
  show Tree.AllLeaves Q 3 (if i = 1 then .leaf (F.pageAttr 3 { r := true } 0#3 0#2) else .hole)
  split
  · exact leaf
  · trivial

theorem far_wf : (farTable F).WF (farState F) ∧ (farTable F).Exact (farState F) := by
  have tree := far_tree lawful four
  obtain ⟨good, stable⟩ := far_leaf lawful four
  have lev : (farTable F).format.lev = 4 := four
  refine ⟨⟨?_, ?_, ?_, ?_, ?_, ?_⟩, ?_⟩
  · rw [tree, far_pages]; decide
  · rw [tree, far_pages]; simp [farState]
  · simp [farState, farTable]
  · rw [tree, far_pages]; simp [farTable]
  · rw [tree, lev]
    exact far_allLeaves good
  · rw [far_root, lev]
    exact (far_entry lawful four).2
  · unfold Pagetable.Exact
    rw [tree, lev]
    exact far_allLeaves stable

/-- The leaf is found. -/
theorem far_find : (farTable F).find (farState F) farAddr =
    (3, some (F.pageAttr 3 { r := true } 0#3 0#2)) := by
  rw [Pagetable.find, far_tree lawful four,
    show (farTable F).format.lev = 4 from four, farTree, Tree.find]
  have index : slotIndex farAddr 3 = 1 := by decide
  rw [if_pos index]
  rfl

/-- A walk below 512 GB that makes holes ends in slot 0 of the root table. -/
theorem far_walk {v : Word} (low : v.toNat < 2 ^ 39) :
    (farTable F).walk v 3 false (farState F) = (.ptr (0x2000#64, 0), farState F) ∧
      (farTable F).walk v 0 false (farState F) = (.hole, farState F) := by
  have index : slotIndex v 3 = 0 := by
    apply Fin.ext
    rw [Pagetable.toNat_slotIndex, show 3 * bpl + pageBits = 39 from rfl, Nat.div_eq_of_lt low]
    rfl
  obtain ⟨kind, small⟩ := far_entry lawful four
  obtain ⟨-, -, addr⟩ := Format.kind_table_iff.mp kind
  have top : (farTable F).next 4 (farTable F).root false (farState F).race
      ((farState F).load (farTable F).root) (farState F) = (.ptr 0x2000#64, farState F) := by
    rw [far_root, Pagetable.next.eq_def]
    simp only [show (farTable F).format = F from rfl, small, addr]
    rfl
  have hole : (farTable F).next 3 (0x2000#64, 0) false (farState F).race
      ((farState F).load (0x2000#64, 0)) (farState F) = (.hole, farState F) := by
    have zero : (farState F).load (0x2000#64, 0) = 0#64 := by simp [State.load, farState]
    rw [zero, Pagetable.next.eq_def]
    rfl
  unfold Pagetable.walk
  rw [show (farTable F).format.lev = 4 from four]
  constructor
  · rw [Pagetable.walkFrom, if_neg (by decide), top]
    simp only [index]
    rw [Pagetable.walkFrom, if_pos rfl]
  · rw [Pagetable.walkFrom, if_neg (by decide), top]
    simp only [index]
    rw [Pagetable.walkFrom, if_neg (by decide), hole]

/-- Rounds that make holes below 512 GB change nothing. -/
theorem far_loop {l : Nat} (level : l = 3 ∨ l = 0) {stride : Word} :
    ∀ (count : Nat) (v p : Word), (∀ i < count, (Pagetable.nth stride v i).toNat < 2 ^ 39) →
      (farTable F).updateLoop l 1 0#64 stride count v p (farState F) = (.success, farState F)
  | 0, _, _, _ => rfl
  | count + 1, v, p, low => by
      have now : v.toNat < 2 ^ 39 := by simpa only [Pagetable.nth_zero] using low 0 (by omega)
      have later : ∀ i < count, (Pagetable.nth stride (v + stride) i).toNat < 2 ^ 39 := fun i hi => by
        rw [← Pagetable.nth_succ]
        exact low (i + 1) (by omega)
      have rest := far_loop level count (v + stride) (p + stride) later
      obtain ⟨slot, hole⟩ := far_walk lawful four now
      rcases level with rfl | rfl
      · -- slot 0 holds nothing and takes nothing
        have zero : (farState F).load (0x2000#64, 0) = 0#64 := by simp [State.load, farState]
        have same : (farTable F).replace 3 0#64 1 (0x2000#64, 0) 0#64 (farState F) = farState F := by
          simp only [Pagetable.replace, Pagetable.exchange, zero]
          show { farState F with mem := write (farState F).mem (0x2000#64, 0) 0#64 } = farState F
          have := write_same (farState F).mem (0x2000#64, 0)
          rw [show (farState F).mem (0x2000#64) 0 = 0#64 from zero] at this
          rw [this]
        rw [Pagetable.updateLoop]
        simp only [ne_eq, not_true_eq_false, decide_false, slot, if_false, same]
        exact rest
      · rw [Pagetable.updateLoop]
        simp only [ne_eq, not_true_eq_false, decide_false, hole]
        exact rest

/-- An update beyond the leaf at 512 GB that only makes rounds below it leaves the
leaf behind. -/
theorem far_refutes {lim ord : Nat} (high : 28 ≤ ord) (width : ord ≤ 36)
    (level : lim = 27 ∨ lim = 0)
    (low : ∀ i < bit32 (ord - lim),
      (Pagetable.nth (BitVec.ofNat 64 (bit32 (lim + pageBits))) 0#64 i).toNat < 2 ^ 39) :
    ¬ UpdateRefines F lim ord := by
  intro refines
  obtain ⟨wf, exact_⟩ := far_wf lawful four
  have smaller : min ord lim = lim := by omega
  have pages : 2 ^ (ord + pageBits) ≤ 2 ^ 48 :=
    Nat.pow_le_pow_right (by decide) (by simp only [pageBits]; omega)
  have request : (farTable F).Request 0#64 0#64 ord := by
    refine ⟨by simp, ?_, by simp, ?_⟩
    · rw [show (farTable F).format.lev = 4 from four]
      simpa [bpl, pageBits] using pages
    · have := Nat.pow_le_pow_right (n := 2) (by decide) lawful.addr_min
      rw [BitVec.toNat_zero, Nat.zero_add]
      exact pages.trans this
  have run : (farTable F).update lim 0#64 0#64 ord .none 0#3 0#2 (farState F) =
      (.success, farState F) := by
    unfold Pagetable.update
    simp only [smaller, show (farTable F).format = F from rfl, lawful.attr_none]
    have slots : bit32 (lim % bpl) = 1 := by rcases level with rfl | rfl <;> rfl
    rw [slots]
    exact far_loop lawful four (by rcases level with rfl | rfl <;> simp [bpl]) _ _ _ low
  have inside : (farTable F).Inside farAddr := by
    rw [Pagetable.Inside, show (farTable F).format.lev = 4 from four]
    decide
  have inRange : InRange 0#64 ord farAddr := by
    refine ⟨by simp, ?_⟩
    have : 2 ^ 40 ≤ 2 ^ (ord + pageBits) :=
      Nat.pow_le_pow_right (by decide) (by simp only [pageBits]; omega)
    have far : farAddr.toNat < 2 ^ 40 := by decide
    simp only [BitVec.toNat_zero]
    omega
  have hole := (refines _ _ _ _ _ _ _ _ rfl wf exact_ request run farAddr inside 0#3 0#2).1 inRange
  rw [if_pos (lawful.attr_none _ _ _), Pagetable.lookup_eq lawful, far_find lawful four] at hole
  have none : F.pagePm (F.pageAttr 3 { r := true } 0#3 0#2) = .none := hole.1
  have again := (far_leaf lawful four).1.encodes 0
  rw [none] at again
  exact again (lawful.attr_none _ _ _)

end Far

/-- A page table without any table. -/
def bareTable (F : Format) : Pagetable := { format := F, root := (0x1000#64, 0) }

def bareState : State where
  mem _ _ := 0#64
  live := [0x1000#64]
  pending := []
  supply := []
  race := []
  obtained := []
  waited := []
  freed := []

theorem bare_tree (F : Format) : (bareTable F).tree bareState = .hole :=
  treeOf_hole _ (Format.kind_zero F _)

theorem bare_wf {F : Format} (lawful : F.Lawful) :
    (bareTable F).WF bareState ∧ (bareTable F).Exact bareState := by
  have tree := bare_tree F
  refine ⟨⟨?_, ?_, ?_, ?_, ?_, ?_⟩, ?_⟩
  · rw [tree]; exact List.nodup_nil
  · rw [tree]; exact fun _ h => absurd h List.not_mem_nil
  · simp [bareState, bareTable]
  · rw [tree]; exact List.not_mem_nil
  · rw [tree]; trivial
  · exact lawful.root_large
  · unfold Pagetable.Exact
    rw [tree]
    trivial

/-- On a page table of three levels the order equal to the limit replaces the root:
the entry of level 3 is taken for a table. -/
theorem npt_refutes (xnx : Bool) : ¬ UpdateRefines (npt xnx) 27 27 := by
  intro refines
  obtain ⟨wf, exact_⟩ := bare_wf (npt_lawful xnx)
  have request : (bareTable (npt xnx)).Request 0#64 0#64 27 := by
    refine ⟨by simp, ?_, by simp, ?_⟩ <;> simp [bareTable, npt, bpl, pageBits]
  have run : (bareTable (npt xnx)).update 27 0#64 0#64 27 { r := true } 0#3 0#2 bareState =
      (.success, ((bareTable (npt xnx)).update 27 0#64 0#64 27 { r := true } 0#3 0#2 bareState).2) := by
    cases xnx <;> rfl
  have inside : (bareTable (npt xnx)).Inside 0#64 := by
    simp [Pagetable.Inside]
  have mapped := (refines _ _ _ _ _ _ _ _ rfl wf exact_ request run 0#64 inside 0#3 0#2).1
    ⟨by simp, by simp⟩
  rw [if_neg ((npt_lawful xnx).attr_read _ _ _)] at mapped
  have pm := mapped.1
  revert pm
  cases xnx <;> decide

theorem limit_cases (F : Format) (args : List Nat) :
    ∃ k, k ≤ F.max ∧ F.limit args = k * bpl := by
  have step : ∀ (args : List Nat) (k : Nat), ∃ j, j ≤ k ∧ args.foldl setLeafMax (k * bpl) = j * bpl := by
    intro args
    induction args with
    | nil => exact fun k => ⟨k, le_refl k, rfl⟩
    | cons a args ih =>
        intro k
        obtain ⟨j, hj, eq⟩ := ih (min k a)
        refine ⟨j, by omega, ?_⟩
        rw [List.foldl_cons, setLeafMax, Nat.mul_min_mul_right]
        exact eq
  exact step args F.max

theorem Fmt.max_eq (fmt : Fmt) : fmt.format.max = 3 := by cases fmt <;> rfl

theorem Fmt.four_or_npt (fmt : Fmt) : fmt.format.lev = 4 ∨ ∃ xnx, fmt = .npt xnx := by
  cases fmt with
  | npt xnx => exact Or.inr ⟨xnx, rfl⟩
  | hptX86 => exact Or.inl rfl
  | ept mbec => exact Or.inl rfl
  | dpt => exact Or.inl rfl
  | hptArm => exact Or.inl rfl

/-- The rounds of a small stride stay low. -/
theorem nth_low (stride count : Nat) (small : count * stride ≤ 2 ^ 39) {i : Nat} (hi : i < count)
    (pos : 0 < stride) : (Pagetable.nth (BitVec.ofNat 64 stride) 0#64 i).toNat < 2 ^ 39 := by
  have below : i * stride < 2 ^ 39 := lt_of_lt_of_le (Nat.mul_lt_mul_of_pos_right hi pos) small
  rw [Pagetable.nth, BitVec.zero_add, ← BitVec.ofNat_mul, BitVec.toNat_ofNat]
  exact (Nat.mod_le _ _).trans_lt below

/-- **Update and lookup refine a map exactly for the orders that are handled**: up
to the limit, or beyond a limit of less than 1 GB leaf pages, with a number of
rounds below `2^32`, and never at the level of the root. -/
theorem updateRefines_iff_handles (fmt : Fmt) (args : List Nat) (ord : Nat)
    (width : ord ≤ fmt.format.lev * bpl) :
    UpdateRefines fmt.format (fmt.format.limit args) ord ↔
      fmt.format.Handles (fmt.format.limit args) ord := by
  refine ⟨fun refines => ?_, updateRefines_of_handles fmt.lawful⟩
  obtain ⟨k, hk, limit⟩ := limit_cases fmt.format args
  rw [fmt.max_eq] at hk
  rw [limit] at refines ⊢
  by_contra unhandled
  simp only [Format.Handles, bpl, pageBits] at unhandled width
  rcases fmt.four_or_npt with four | ⟨xnx, rfl⟩
  · rw [four] at unhandled width
    obtain rfl | rfl : k = 3 ∨ k = 0 := by omega
    · refine far_refutes fmt.lawful four (by omega) (by omega) (Or.inl rfl) (fun i hi => ?_) refines
      refine nth_low (bit32 (3 * bpl + pageBits)) _ ?_ hi (by decide)
      have rounds : bit32 (ord - 3 * bpl) ≤ 2 ^ 9 := by
        refine Nat.pow_le_pow_right (by decide) ((Nat.mod_le _ _).trans ?_)
        simp only [bpl]
        omega
      exact (Nat.mul_le_mul_right _ rounds).trans (by decide)
    · refine far_refutes fmt.lawful four (by omega) (by omega) (Or.inr rfl) (fun i hi => ?_) refines
      refine nth_low (bit32 (0 * bpl + pageBits)) _ ?_ hi (by decide)
      have rounds : bit32 (ord - 0 * bpl) ≤ 2 ^ 9 :=
        Nat.pow_le_pow_right (by decide) (by omega)
      exact (Nat.mul_le_mul_right _ rounds).trans (by decide)
  · have three : (Fmt.npt xnx).format.lev = 3 := rfl
    rw [three] at unhandled width
    obtain rfl : k = 3 := by omega
    obtain rfl : ord = 27 := by omega
    exact npt_refutes xnx refines

theorem updateRefines_iff_handles_split : UpdateRefines hptX86 18 20 :=
  (updateRefines_iff_handles .hptX86 [2] 20 (by decide)).mpr (by decide)

/-- An update of 1 TB, on an x86 host page table with the default limit, is not one. -/
theorem not_updateRefines_terabyte : ¬ UpdateRefines hptX86 (hptX86.limit []) 28 := by
  refine far_refutes hptX86_lawful rfl (by decide) (by decide) (Or.inl rfl) fun i hi => ?_
  exact nth_low 128 2 (by decide) hi (by decide)

end Nova.Kernel
