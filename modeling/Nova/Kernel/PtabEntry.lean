/-
# Nova.Kernel.PtabEntry — what a page-table entry translates

`GoodLeaf F l e` is the invariant of a leaf entry in a slot of level `l`, and
`Format.translate` what a search that ends at an entry says about an address.
A frame joined with encoded attributes is a leaf that reads back (`leaf_good`),
also after the entry was stepped by the page size (`leaf_step`), and its
attributes can be encoded again unchanged (`StableLeaf`).  The main result is
`splinter_translate`: the 512 entries that replace a stable large leaf translate
as the leaf did.
-/
import Nova.Kernel.Pagetable

namespace Nova.Kernel

open Nova.Theory.Words
open Nova.Theory.Radix

set_option autoImplicit false

/-- Physical address, permissions, cacheability and shareability; `none` in a hole. -/
abbrev Translation := Option (Word × Permissions × Cacheability × Shareability)

namespace Format

/-- What is known of a leaf entry in a slot of level `l`. -/
structure GoodLeaf (F : Format) (l : Nat) (e : Word) : Prop where
  level : l < F.lev
  leaf : F.kind l e = .leaf
  large : l ≠ 0 → F.isLarge l e = true
  encodes : ∀ m, F.pageAttr m (F.pagePm e) (F.pageCa l e) (F.pageSh e) ≠ 0#64

/-- A leaf whose attributes survive being encoded again. -/
def StableLeaf (F : Format) (l : Nat) (e : Word) : Prop :=
  F.Stable (F.pagePm e) (F.pageCa l e) (F.pageSh e)

/-- The translation of `x` by the end of a search. -/
def translate (F : Format) (x : Word) : Nat × Option Word → Translation
  | (_, none) => none
  | (l, some e) => some (F.addr l e ||| x &&& offsMask (l * bpl), F.decode l e)

theorem kind_zero (F : Format) (l : Nat) : F.kind l 0#64 = .hole := by simp [kind]

theorem kind_hole {F : Format} {l : Nat} {e : Word} (h : F.kind l e = .hole) : e = 0#64 := by
  unfold kind at h
  split at h
  · assumption
  · split at h <;> cases h

theorem kind_leaf_iff {F : Format} {l : Nat} {e : Word} :
    F.kind l e = .leaf ↔ e ≠ 0#64 ∧ F.isTable l e = false := by
  unfold kind
  constructor
  · intro h
    split at h
    · cases h
    · split at h
      · cases h
      · exact ⟨by assumption, by simpa using ‹¬ F.isTable l e = true›⟩
  · rintro ⟨ne, table⟩
    simp [ne, table]

theorem kind_table_iff {F : Format} {l : Nat} {e p : Word} :
    F.kind l e = .table p ↔ e ≠ 0#64 ∧ F.isTable l e = true ∧ F.addr 0 e = p := by
  unfold kind
  constructor
  · intro h
    split at h
    · cases h
    · split at h
      · exact ⟨by assumption, by assumption, by simpa using h⟩
      · cases h
  · rintro ⟨ne, table, rfl⟩
    simp [ne, table]

variable {F : Format}

theorem offsMask_bit {o : Nat} (ho : o + pageBits < 64) (i : Nat) :
    (offsMask o).getLsbD i = decide (i < o + pageBits) := by
  rw [offsMask, getLsbD_lowMask ho]

theorem Frame.zero {l : Nat} {f : Word} (frame : F.Frame l f) : F.Frame 0 f :=
  frame.mono (by simp) (le_refl _)

section Lawful

variable (lawful : F.Lawful)
include lawful

theorem Lawful.bits_lt {l : Nat} (hl : l ≤ F.lev) : l * bpl + pageBits < 64 := by
  have := lawful.lev_le
  simp only [bpl, pageBits]
  omega

theorem Lawful.width_le {l : Nat} (hl : l ≤ F.lev) : l * bpl + pageBits ≤ F.addrBits := by
  have := lawful.addr_wide
  have := Nat.mul_le_mul_right bpl hl
  omega

theorem Lawful.addr_frame {l : Nat} (hl : l ≤ F.lev) (e : Word) : F.Frame l (F.addr l e) := by
  apply within_of_bits
  intro i set
  simp only [addr, BitVec.getLsbD_and, BitVec.getLsbD_not, lawful.mask_bit,
    offsMask_bit (lawful.bits_lt hl), Bool.and_eq_true, decide_eq_true_eq, Bool.not_eq_true',
    decide_eq_false_iff_not] at set
  omega

/-- The address of a frame joined with bits that stay clear of it. -/
theorem Lawful.addr_or {l : Nat} (hl : l ≤ F.lev) {f a : Word} (frame : F.Frame l f)
    (clear : ∀ i, l * bpl + pageBits ≤ i → i < F.addrBits → a.getLsbD i = false) :
    F.addr l (f ||| a) = f := by
  apply BitVec.eq_of_getLsbD_eq
  intro i hi
  simp only [addr, BitVec.getLsbD_and, BitVec.getLsbD_or, BitVec.getLsbD_not, lawful.mask_bit,
    offsMask_bit (lawful.bits_lt hl)]
  by_cases inside : l * bpl + pageBits ≤ i ∧ i < F.addrBits
  · have above : pageBits ≤ i := by omega
    rw [clear i inside.1 inside.2]
    simp [inside.2, above, hi, show ¬ i < l * bpl + pageBits by omega]
  · have outside : i < l * bpl + pageBits ∨ F.addrBits ≤ i := by omega
    rw [frame.bit outside]
    rcases outside with low | high
    · simp [low]
    · simp [show ¬ i < F.addrBits by omega]

/-- Encoded attributes joined with address bits are a leaf. -/
theorem Lawful.leaf_or {l : Nat} (hl : l < F.lev) {x : Word} (field : Within 7 F.addrBits x)
    {pm : Permissions} {ca : Cacheability} {sh : Shareability} (ne : F.pageAttr l pm ca sh ≠ 0#64) :
    F.GoodLeaf l (x ||| F.pageAttr l pm ca sh) := by
  obtain ⟨table, large, encodes⟩ := lawful.attr_or l pm ca sh x hl ne field
  exact ⟨hl, kind_leaf_iff.mpr ⟨or_ne_zero ne, table⟩, large, encodes⟩

/-- A frame joined with encoded attributes is a leaf that reads back. -/
theorem Lawful.leaf_good {l : Nat} (hl : l < F.lev) {f : Word} (frame : F.Frame l f)
    {pm : Permissions} {ca : Cacheability} {sh : Shareability} (ne : F.pageAttr l pm ca sh ≠ 0#64) :
    F.GoodLeaf l (f ||| F.pageAttr l pm ca sh) ∧ F.StableLeaf l (f ||| F.pageAttr l pm ca sh) ∧
      F.addr l (f ||| F.pageAttr l pm ca sh) = f ∧
      F.decode l (f ||| F.pageAttr l pm ca sh) = F.encoded pm ca sh := by
  have decoded : F.decode l (f ||| F.pageAttr l pm ca sh) = F.decode l (F.pageAttr l pm ca sh) := by
    simp only [decode, lawful.pm_frame l f _ frame ne, lawful.ca_frame l f _ frame,
      lawful.sh_frame l f _ frame]
  have field : Within 7 F.addrBits f := frame.mono (by simp only [pageBits]; omega) (le_refl _)
  refine ⟨lawful.leaf_or hl field ne, ?_, lawful.addr_or hl.le frame
    (lawful.attr_clear l pm ca sh hl), ?_⟩
  · have := lawful.stable l pm ca sh ne
    simp only [decode, Prod.mk.injEq] at decoded
    rwa [StableLeaf, decoded.1, decoded.2.1, decoded.2.2]
  · rw [decoded, lawful.decode_level l pm ca sh ne]

/-- Stepping a leaf by pages of its size steps its frame. -/
theorem Lawful.leaf_step {l : Nat} (hl : l < F.lev) {f : Word} (frame : F.Frame l f)
    (pm : Permissions) (ca : Cacheability) (sh : Shareability) {i : Nat}
    (fits : f.toNat + i * 2 ^ (l * bpl + pageBits) < 2 ^ F.addrBits) :
    (f ||| F.pageAttr l pm ca sh) + BitVec.ofNat 64 i * pageSize (l * bpl) =
        (f + BitVec.ofNat 64 (i * 2 ^ (l * bpl + pageBits))) ||| F.pageAttr l pm ca sh ∧
      F.Frame l (f + BitVec.ofNat 64 (i * 2 ^ (l * bpl + pageBits))) ∧
      (f + BitVec.ofNat 64 (i * 2 ^ (l * bpl + pageBits))).toNat =
        f.toNat + i * 2 ^ (l * bpl + pageBits) := by
  have fit64 : F.addrBits ≤ 64 := lawful.addr_fits.trans (by decide)
  have unit : i * 2 ^ (l * bpl + pageBits) % 2 ^ (l * bpl + pageBits) = 0 := Nat.mul_mod_left _ _
  have product : BitVec.ofNat 64 i * pageSize (l * bpl) =
      BitVec.ofNat 64 (i * 2 ^ (l * bpl + pageBits)) := by
    apply BitVec.eq_of_toNat_eq
    simp only [pageSize, BitVec.toNat_mul, BitVec.toNat_ofNat, BitVec.toNat_shiftLeft,
      Nat.shiftLeft_eq, Nat.one_mod, Nat.one_mul, Nat.mod_mul_mod, Nat.mul_mod_mod]
  have field := frame.add fit64 unit fits
  refine ⟨?_, field.1, field.2⟩
  rw [product]
  exact or_add frame fit64 unit fits (lawful.attr_clear l pm ca sh hl)

/-- The address of a leaf leaves room for the pages below it. -/
theorem Lawful.addr_room {l : Nat} (hl : l ≤ F.lev) (e : Word) {d : Nat}
    (hd : d < 2 ^ (l * bpl + pageBits)) : (F.addr l e).toNat + d < 2 ^ F.addrBits := by
  obtain ⟨unit, bound⟩ := lawful.addr_frame hl e
  obtain ⟨c, hc⟩ := Nat.dvd_of_mod_eq_zero unit
  obtain ⟨k, hk⟩ := Nat.pow_dvd_pow 2 (lawful.width_le hl)
  rw [hc, hk] at bound ⊢
  have : c < k := Nat.lt_of_mul_lt_mul_left bound
  calc 2 ^ (l * bpl + pageBits) * c + d < 2 ^ (l * bpl + pageBits) * (c + 1) := by
        rw [Nat.mul_succ]; omega
    _ ≤ 2 ^ (l * bpl + pageBits) * k := Nat.mul_le_mul_left _ this

end Lawful

end Format

/-! ## Splintering -/

namespace Pagetable

variable {T : Pagetable}

/-- The entry `i` of the table that replaces a large leaf. -/
theorem splinter_good (lawful : T.format.Lawful) {k : Nat} {e : Word}
    (good : T.format.GoodLeaf (k + 1) e) (i : Fin entries) :
    T.format.GoodLeaf k ((T.splinter (k + 1) e).1 + BitVec.ofNat 64 i * (T.splinter (k + 1) e).2) ∧
      T.format.StableLeaf k
        ((T.splinter (k + 1) e).1 + BitVec.ofNat 64 i * (T.splinter (k + 1) e).2) ∧
      (T.format.addr k ((T.splinter (k + 1) e).1 +
          BitVec.ofNat 64 i * (T.splinter (k + 1) e).2)).toNat =
        (T.format.addr (k + 1) e).toNat + i * 2 ^ (k * bpl + pageBits) ∧
      (T.format.StableLeaf (k + 1) e → T.format.decode k ((T.splinter (k + 1) e).1 +
          BitVec.ofNat 64 i * (T.splinter (k + 1) e).2) = T.format.decode (k + 1) e) := by
  have hk : k < T.format.lev := (Nat.lt_succ_self k).trans good.level
  have ne : e ≠ 0#64 := (Format.kind_leaf_iff.mp good.leaf).1
  have frame : T.format.Frame k (T.format.addr (k + 1) e) :=
    (lawful.addr_frame good.level.le e).mono (by simp only [bpl]; omega) (le_refl _)
  have room : (i : Nat) * 2 ^ (k * bpl + pageBits) < 2 ^ ((k + 1) * bpl + pageBits) := by
    have : 2 ^ ((k + 1) * bpl + pageBits) = entries * 2 ^ (k * bpl + pageBits) := by
      simp only [entries, bpl, pageBits]; ring
    rw [this]
    exact Nat.mul_lt_mul_of_pos_right i.isLt (Nat.two_pow_pos _)
  obtain ⟨step, frame', value⟩ := lawful.leaf_step hk frame (T.format.pagePm e)
    (T.format.pageCa (k + 1) e) (T.format.pageSh e) (lawful.addr_room good.level.le e room)
  have entry : (T.splinter (k + 1) e).1 + BitVec.ofNat 64 i * (T.splinter (k + 1) e).2 =
      (T.format.addr (k + 1) e + BitVec.ofNat 64 ((i : Nat) * 2 ^ (k * bpl + pageBits))) |||
        T.format.pageAttr k (T.format.pagePm e) (T.format.pageCa (k + 1) e) (T.format.pageSh e) := by
    simpa [splinter, ne] using step
  obtain ⟨leaf, stable, addr, decoded⟩ := lawful.leaf_good hk frame' (good.encodes k)
  rw [entry, addr]
  refine ⟨leaf, stable, value, fun before => ?_⟩
  obtain ⟨-, pm, ca, sh⟩ := before k hk
  rw [decoded, ← lawful.decode_level k _ _ _ (good.encodes k)]
  simp only [Format.decode, pm, ca, sh]

theorem toNat_slotIndex (x : Word) (l : Nat) :
    (slotIndex x l : Nat) = x.toNat / 2 ^ (l * bpl + pageBits) % entries := by
  simp [slotIndex, Nat.shiftRight_eq_div_pow]

/-- **Splintering is transparent**: the entry that an address selects in the new
table translates it as the large leaf did. -/
theorem splinter_translate (lawful : T.format.Lawful) {k : Nat} {e : Word}
    (good : T.format.GoodLeaf (k + 1) e) (stable : T.format.StableLeaf (k + 1) e) (x : Word) :
    T.format.translate x (k, some ((T.splinter (k + 1) e).1 +
        BitVec.ofNat 64 (slotIndex x k) * (T.splinter (k + 1) e).2)) =
      T.format.translate x (k + 1, some e) := by
  obtain ⟨leaf, -, addr, decoded⟩ := splinter_good lawful good (slotIndex x k)
  have split : x.toNat % 2 ^ ((k + 1) * bpl + pageBits) =
      (slotIndex x k : Nat) * 2 ^ (k * bpl + pageBits) + x.toNat % 2 ^ (k * bpl + pageBits) := by
    have : 2 ^ ((k + 1) * bpl + pageBits) = 2 ^ (k * bpl + pageBits) * entries := by
      simp only [entries, bpl, pageBits]; ring
    rw [this, Nat.mod_mul, toNat_slotIndex]
    ring
  have address : T.format.addr k ((T.splinter (k + 1) e).1 +
        BitVec.ofNat 64 (slotIndex x k) * (T.splinter (k + 1) e).2) ||| x &&& offsMask (k * bpl) =
      T.format.addr (k + 1) e ||| x &&& offsMask ((k + 1) * bpl) := by
    apply BitVec.eq_of_toNat_eq
    rw [offsMask, offsMask, toNat_or_low (lawful.addr_frame leaf.level.le _) x
        (lawful.bits_lt leaf.level.le), toNat_or_low (lawful.addr_frame good.level.le _) x
        (lawful.bits_lt good.level.le), addr, split]
    ring
  simp only [Format.translate, address, decoded stable]

end Pagetable

end Nova.Kernel
