/-
# Nova.Kernel.Ranges — memory ranges in naturally aligned pieces

Two loops cut a range into the largest pieces that alignment and size allow:
`Space_mem::user_access`, which opens physical memory, and the loop over the segments of
the root image in `Ec::create_root`, which aligns source and destination at once.  Here
they are on machine words, as the lists of the calls that they make.

* `access_decomposed`: the pieces of `user_access` tile the range.
* `segment_pages`: the delegations of a segment are its pages, in order.
* `range_decomposition`: both, and the one kind of segment whose pages `create_root`
  forgets: with `align_up` its size is no 64-bit number.
-/
import Nova.Kernel.Bits
import Nova.Kernel.UserAccess
import Nova.Theory.Chunks

namespace Nova.Kernel

open Nova.Theory.Chunks
open Nova.Theory.Words

set_option autoImplicit false

namespace Bits

theorem bitScanForward_eq {v : Word} (some : v ≠ 0#64) : bitScanForward v = Pagetable.bitScanForward v.toNat := by
  have number : v.toNat ≠ 0 := fun zero => some (BitVec.eq_of_toNat_eq zero)
  obtain ⟨divides, least⟩ := ctz_spec some
  rw [bitScanForward, if_neg some]
  have low := Pagetable.le_bitScanForward _ _ number divides
  have high : Pagetable.bitScanForward v.toNat ≤ v.ctz.toNat := by
    by_contra more
    exact least ((Nat.pow_dvd_pow 2 (Nat.not_le.mp more)).trans (Pagetable.pow_bitScanForward_dvd _ number))
  rw [Nat.le_antisymm high low]

theorem pow_maxOrder_le {base size : Nat} (some : size ≠ 0) : 2 ^ Pagetable.maxOrder base size ≤ size := by
  refine Nat.le_trans (Nat.pow_le_pow_right (by decide) ?_) (Nat.log2_self_le some)
  unfold Pagetable.maxOrder
  split
  · exact Nat.min_le_right _ _
  · exact Nat.le_refl _

theorem maxOrder_lt {base size : Word} (some : size ≠ 0#64) : Pagetable.maxOrder base.toNat size.toNat < 64 := by
  have number : size.toNat ≠ 0 := fun zero => some (BitVec.eq_of_toNat_eq zero)
  exact (Nat.pow_lt_pow_iff_right (by decide)).mp (Nat.lt_of_le_of_lt (pow_maxOrder_le number) size.isLt)

/-- `max_order` of a range that is not empty -/
theorem toNat_maxOrder {base size : Word} (some : size ≠ 0#64) :
    (maxOrder base size).toNat = Pagetable.maxOrder base.toNat size.toNat := by
  have small := @maxOrder_lt base size some
  have order : (if base ≠ 0#64 then min (bitScanForward base) (bitScanReverse size) else bitScanReverse size) =
      (Pagetable.maxOrder base.toNat size.toNat : Int) := by
    rw [bitScanReverse_eq some]
    unfold Pagetable.maxOrder
    by_cases zero : base = 0#64
    · subst zero
      rfl
    · have number : base.toNat ≠ 0 := fun h => zero (BitVec.eq_of_toNat_eq h)
      rw [if_pos zero, if_pos number, bitScanForward_eq zero]
      omega
  rw [maxOrder, order, BitVec.ofInt_natCast, BitVec.toNat_ofNat]
  exact Nat.mod_eq_of_lt (by omega)

end Bits

namespace Ranges

/-- `static_cast<unsigned>` -/
def unsigned (o : Word) : BitVec 32 := o.setWidth 32

theorem toNat_unsigned {o : Word} (small : o.toNat < 64) : (unsigned o).toNat = o.toNat := by
  rw [unsigned, BitVec.toNat_setWidth]
  exact Nat.mod_eq_of_lt (by omega)

/-- Cutting off a piece -/
theorem toNat_sub_piece {size : Word} {o : BitVec 32} (small : o.toNat < 64) (fits : 2 ^ o.toNat ≤ size.toNat) :
    (1#64 <<< o).toNat = 2 ^ o.toNat ∧ (size - 1#64 <<< o).toNat = size.toNat - 2 ^ o.toNat := by
  have one : (1#64 <<< o).toNat = 2 ^ o.toNat := by
    change (1#64 <<< o.toNat).toNat = _
    rw [BitVec.toNat_shiftLeft]
    change 1 <<< o.toNat % 2 ^ 64 = _
    rw [Nat.one_shiftLeft, Nat.mod_eq_of_lt (Nat.pow_lt_pow_right (by decide) small)]
  refine ⟨one, ?_⟩
  rw [BitVec.toNat_sub_of_le (BitVec.le_def.mpr (by rw [one]; exact fits)), one]

/-! ## `user_access` -/

/-- The addresses and the order of a call of `update` -/
structure Update where
  v : Word
  p : Word
  ord : BitVec 32
  deriving DecidableEq

theorem piece_decreases {base size : Word} (some : ¬ size = 0#64) :
    (size - 1#64 <<< unsigned (Bits.maxOrder base size)).toNat < size.toNat := by
  have number : size.toNat ≠ 0 := fun zero => some (BitVec.eq_of_toNat_eq zero)
  have value := @Bits.toNat_maxOrder base size some
  have small := @Bits.maxOrder_lt base size some
  have fits := @Bits.pow_maxOrder_le base.toNat size.toNat number
  rw [← value] at small fits
  rw [← toNat_unsigned small] at fits
  have small' : (unsigned (Bits.maxOrder base size)).toNat < 64 := by rwa [toNat_unsigned small]
  rw [(toNat_sub_piece small' fits).2]
  have := Nat.two_pow_pos (unsigned (Bits.maxOrder base size)).toNat
  omega

/-- The loop of `Space_mem::user_access` -/
def accessUpdates (addr size : Word) : List Update :=
  if size = 0#64 then []
  else
    let o := unsigned (Bits.maxOrder addr size)
    { v := addr, p := addr, ord := o - 12#32 } :: accessUpdates (addr + 1#64 <<< o) (size - 1#64 <<< o)
termination_by size.toNat
decreasing_by
  exact piece_decreases ‹_›

/-! ## `create_root` -/

/-- `Ph`, as far as `create_root` reads it -/
structure Ph where
  type : BitVec 32
  flags : BitVec 32
  fOffs : Word
  vAddr : Word
  fSize : Word
  mSize : Word

/-- The selectors, the order and the permission mask of a call of `delegate` -/
structure Delegate where
  ssb : Word
  dsb : Word
  ord : BitVec 32
  pmm : Permissions

/-- The smaller of the two orders -/
def bothOrder (phys virt size : Word) : BitVec 32 :=
  unsigned (if Bits.maxOrder phys size < Bits.maxOrder virt size then Bits.maxOrder phys size else Bits.maxOrder virt size)

/-- A piece fits both ranges. -/
theorem bothOrder_spec {phys virt size : Word} (some : size ≠ 0#64) :
    (bothOrder phys virt size).toNat =
      min (Pagetable.maxOrder phys.toNat size.toNat) (Pagetable.maxOrder virt.toNat size.toNat) := by
  have first := @Bits.toNat_maxOrder phys size some
  have second := @Bits.toNat_maxOrder virt size some
  have small := @Bits.maxOrder_lt phys size some
  have small' := @Bits.maxOrder_lt virt size some
  unfold bothOrder
  split
  · rename_i less
    rw [toNat_unsigned (by omega), first]
    rw [BitVec.lt_def, first, second] at less
    omega
  · rename_i least
    rw [toNat_unsigned (by omega), second]
    rw [BitVec.lt_def, first, second] at least
    omega

theorem both_fits {phys virt size : Word} (some : size ≠ 0#64) :
    (bothOrder phys virt size).toNat < 64 ∧ 2 ^ (bothOrder phys virt size).toNat ≤ size.toNat := by
  have number : size.toNat ≠ 0 := fun zero => some (BitVec.eq_of_toNat_eq zero)
  rw [bothOrder_spec some]
  refine ⟨Nat.lt_of_le_of_lt (Nat.min_le_left _ _) (@Bits.maxOrder_lt phys size some), ?_⟩
  exact Nat.le_trans (Nat.pow_le_pow_right (by decide) (Nat.min_le_left _ _)) (Bits.pow_maxOrder_le number)

/-- The loop over a segment in `create_root` -/
def segmentDelegates (pmm : Permissions) (phys virt size : Word) : List Delegate :=
  if size = 0#64 then []
  else
    let o := bothOrder phys virt size
    { ssb := phys >>> 12, dsb := virt >>> 12, ord := o - 12#32, pmm } ::
      segmentDelegates pmm (phys + 1#64 <<< o) (virt + 1#64 <<< o) (size - 1#64 <<< o)
termination_by size.toNat
decreasing_by
  rename_i some
  obtain ⟨small, fits⟩ := @both_fits phys virt size some
  rw [(toNat_sub_piece small fits).2]
  have := Nat.two_pow_pos (bothOrder phys virt size).toNat
  omega

/-- What `create_root` does with an entry of the program header table -/
inductive Loaded where
  | skipped
  | refused
  | mapped (calls : List Delegate)

/-- `perm` of a segment -/
def Ph.perm (p : Ph) : Permissions := { r := p.flags.getLsbD 2, w := p.flags.getLsbD 1, xu := p.flags.getLsbD 0, u := true }

/-- The calls for a segment of an image at the physical address `ra` -/
def Ph.delegates (ra : Word) (p : Ph) : List Delegate :=
  let phys := alignDn (p.fOffs + ra) 4096#64
  let virt := alignDn p.vAddr 4096#64
  let size := alignUp (p.vAddr + p.fSize) 4096#64 - virt
  segmentDelegates p.perm phys virt size

/-- The body of the loop over the table -/
def loadSegment (ra : Word) (p : Ph) : Loaded :=
  if p.type ≠ 1#32 then .skipped
  else if p.fSize ≠ p.mSize ∨ p.vAddr % 4096#64 ≠ (p.fOffs + ra) % 4096#64 then .refused
  else .mapped (p.delegates ra)

/-! ## The pieces of `user_access` -/

/-- The addresses that a call of `update` is about -/
def Update.chunk (u : Update) : Chunk := ⟨u.v.toNat, u.ord.toNat + pageBits⟩

/-- The calls open the addresses from `lo` to `hi` in naturally aligned pieces of at least a page, one after the
other, each address once. -/
structure Decomposed (calls : List Update) (lo hi : Nat) : Prop where
  identity : ∀ u ∈ calls, u.p = u.v
  order : ∀ u ∈ calls, u.ord.toNat + pageBits < 64
  aligned : ∀ u ∈ calls, u.chunk.Aligned
  contiguous : Contiguous (calls.map Update.chunk) lo hi

theorem Decomposed.tiling {calls : List Update} {lo hi : Nat} (parts : Decomposed calls lo hi) :
    Tiling (fun c => c ∈ calls.map Update.chunk) lo hi ∧ (calls.map Update.chunk).Nodup := by
  refine parts.contiguous.tiling fun c member => ?_
  obtain ⟨u, inside, rfl⟩ := List.mem_map.mp member
  exact parts.aligned u inside

/-- The order of an `update` -/
theorem toNat_sub_pageBits {o : BitVec 32} (large : pageBits ≤ o.toNat) : (o - 12#32).toNat + pageBits = o.toNat := by
  have below : 12#32 ≤ o := BitVec.le_def.mpr large
  rw [BitVec.toNat_sub_of_le below]
  exact Nat.sub_add_cancel large

/-- An aligned piece does not wrap around. -/
theorem add_piece_le {x o : Nat} (small : o < 64) (aligned : 2 ^ o ∣ x) (bound : x < 2 ^ 64) : x + 2 ^ o ≤ 2 ^ 64 :=
  add_le_of_dvd aligned (Nat.pow_dvd_pow 2 (Nat.le_of_lt small)) bound

/-- What a piece leaves of a range of pages -/
theorem rest_aligned {x o : Nat} (large : pageBits ≤ o) (aligned : 2 ^ pageBits ∣ x) :
    2 ^ pageBits ∣ x + 2 ^ o ∧ 2 ^ pageBits ∣ x - 2 ^ o :=
  ⟨Nat.dvd_add aligned (Nat.pow_dvd_pow 2 large), Nat.dvd_sub aligned (Nat.pow_dvd_pow 2 large)⟩

theorem access_decomposed (base size : Word) (alignedB : 2 ^ pageBits ∣ base.toNat) (alignedS : 2 ^ pageBits ∣ size.toNat)
    (fits : base.toNat + size.toNat ≤ 2 ^ 64) :
    Decomposed (accessUpdates base size) base.toNat (base.toNat + size.toNat) := by
  fun_induction accessUpdates base size with
  | case1 addr =>
      exact ⟨fun u none => (nomatch none), fun u none => (nomatch none), fun u none => (nomatch none), rfl⟩
  | case2 addr size some o ih =>
      have number : size.toNat ≠ 0 := fun zero => some (BitVec.eq_of_toNat_eq zero)
      obtain ⟨aligned, piece, page⟩ := Pagetable.maxOrder_spec number alignedB alignedS
      have value : o.toNat = Pagetable.maxOrder addr.toNat size.toNat := by
        rw [← Bits.toNat_maxOrder some]
        exact toNat_unsigned (by rw [Bits.toNat_maxOrder some]; exact Bits.maxOrder_lt some)
      have small : o.toNat < 64 := by
        rw [value]
        exact Bits.maxOrder_lt some
      rw [← value] at aligned piece page
      obtain ⟨one, left⟩ := toNat_sub_piece small piece
      have order := toNat_sub_pageBits page
      have first : Update.chunk ⟨addr, addr, o - 12#32⟩ = ⟨addr.toNat, o.toNat⟩ := by
        rw [Update.chunk, order]
      obtain ⟨upper, lower⟩ := rest_aligned page alignedB
      have rest : Decomposed (accessUpdates (addr + 1#64 <<< o) (size - 1#64 <<< o)) (addr.toNat + 2 ^ o.toNat)
          (addr.toNat + size.toNat) := by
        by_cases last : size - 1#64 <<< o = 0#64
        · -- the sum may wrap around behind the last piece
          have all : size.toNat = 2 ^ o.toNat := by
            have zero := congrArg BitVec.toNat last
            rw [left] at zero
            change size.toNat - 2 ^ o.toNat = 0 at zero
            omega
          rw [last, accessUpdates, if_pos rfl, all]
          exact ⟨fun u none => (nomatch none), fun u none => (nomatch none), fun u none => (nomatch none), rfl⟩
        · have more : size.toNat - 2 ^ o.toNat ≠ 0 := fun zero => last (BitVec.eq_of_toNat_eq (left.trans zero))
          have next : (addr + 1#64 <<< o).toNat = addr.toNat + 2 ^ o.toNat := by
            rw [BitVec.toNat_add, one]
            exact Nat.mod_eq_of_lt (by omega)
          have later := ih (by rw [next]; exact upper) (by rw [left]; exact (rest_aligned page alignedS).2)
            (by rw [next, left]; omega)
          rw [next, left, show addr.toNat + 2 ^ o.toNat + (size.toNat - 2 ^ o.toNat) = addr.toNat + size.toNat by omega] at later
          exact later
      refine ⟨fun u member => ?_, fun u member => ?_, fun u member => ?_, ?_⟩
      · rcases List.mem_cons.mp member with rfl | member
        · rfl
        · exact rest.identity u member
      · rcases List.mem_cons.mp member with rfl | member
        · rw [order]
          exact small
        · exact rest.order u member
      · rcases List.mem_cons.mp member with rfl | member
        · rw [first]
          exact aligned
        · exact rest.aligned u member
      · rw [List.map_cons, first]
        exact ⟨rfl, rest.contiguous⟩

/-- **The model of `user_access`** makes these calls. -/
theorem userAccess_updates (T : Pagetable) (lim : Nat) (a : Bool) (ca : Cacheability) (sh : Shareability) (base size : Word)
    (alignedB : 2 ^ pageBits ∣ base.toNat) (alignedS : 2 ^ pageBits ∣ size.toNat)
    (fits : base.toNat + size.toNat ≤ 2 ^ 64) (s : State) :
    Pagetable.userAccess T lim a ca sh base.toNat size.toNat s =
      (accessUpdates base size).foldl
        (fun s u => (T.update lim u.v u.p u.ord.toNat (if a then Pagetable.userApi else .none) ca sh s).2) s := by
  fun_induction accessUpdates base size generalizing s with
  | case1 addr =>
      rw [Pagetable.userAccess]
      rfl
  | case2 addr size some o ih =>
      have number : size.toNat ≠ 0 := fun zero => some (BitVec.eq_of_toNat_eq zero)
      obtain ⟨-, piece, page⟩ := Pagetable.maxOrder_spec number alignedB alignedS
      have value : o.toNat = Pagetable.maxOrder addr.toNat size.toNat := by
        rw [← Bits.toNat_maxOrder some]
        exact toNat_unsigned (by rw [Bits.toNat_maxOrder some]; exact Bits.maxOrder_lt some)
      have small : o.toNat < 64 := by
        rw [value]
        exact Bits.maxOrder_lt some
      rw [← value] at piece page
      obtain ⟨one, left⟩ := toNat_sub_piece small piece
      have order : (o - 12#32).toNat = o.toNat - pageBits := by
        have := toNat_sub_pageBits page
        omega
      rw [Pagetable.userAccess, if_neg number, List.foldl_cons]
      dsimp only
      rw [← value, order, BitVec.ofNat_toNat, BitVec.setWidth_eq, ← left]
      by_cases last : size - 1#64 <<< o = 0#64
      · rw [last, accessUpdates, if_pos rfl, Pagetable.userAccess]
        rfl
      · have more : size.toNat - 2 ^ o.toNat ≠ 0 := fun zero => last (BitVec.eq_of_toNat_eq (left.trans zero))
        have next : (addr + 1#64 <<< o).toNat = addr.toNat + 2 ^ o.toNat := by
          rw [BitVec.toNat_add, one]
          exact Nat.mod_eq_of_lt (by omega)
        rw [← next]
        exact ih (by rw [next]; exact (rest_aligned page alignedB).1) (by rw [left]; exact (rest_aligned page alignedS).2)
          (by rw [next, left]; omega) _

/-! ## The pages of a segment -/

/-- The pages that a call of `delegate` maps: the selectors of destination and source -/
def Delegate.pages (c : Delegate) : List (Word × Word) :=
  (List.range (2 ^ c.ord.toNat)).map fun j => (c.dsb + BitVec.ofNat 64 j, c.ssb + BitVec.ofNat 64 j)

/-- The pages of a range: the selectors of the `k`-th page at `virt` and at `phys` -/
def pageOf (virt phys : Word) (k : Nat) : Word × Word :=
  ((virt + BitVec.ofNat 64 (k * 4096)) >>> 12, (phys + BitVec.ofNat 64 (k * 4096)) >>> 12)

/-- The selector of a page of an aligned piece -/
theorem selector_add {x : Word} {o j : Nat} (small : o < 64) (aligned : 2 ^ o ∣ x.toNat) (inside : j * 4096 < 2 ^ o) :
    x >>> 12 + BitVec.ofNat 64 j = (x + BitVec.ofNat 64 (j * 4096)) >>> 12 := by
  have fits := add_piece_le small aligned x.isLt
  apply BitVec.eq_of_toNat_eq
  rw [BitVec.toNat_add, BitVec.toNat_ushiftRight, BitVec.toNat_ushiftRight, BitVec.toNat_add, BitVec.toNat_ofNat,
    BitVec.toNat_ofNat, Nat.shiftRight_eq_div_pow, Nat.shiftRight_eq_div_pow]
  omega

/-- The address behind a piece, which may wrap around -/
theorem next_aligned {x : Word} {o : BitVec 32} (large : pageBits ≤ o.toNat) (one : (1#64 <<< o).toNat = 2 ^ o.toNat)
    (aligned : 2 ^ pageBits ∣ x.toNat) : 2 ^ pageBits ∣ (x + 1#64 <<< o).toNat := by
  have word : 2 ^ pageBits ∣ 2 ^ 64 := Nat.pow_dvd_pow 2 (by decide)
  rw [BitVec.toNat_add, one]
  exact (Nat.dvd_mod_iff word).mpr (rest_aligned large aligned).1

/-- The pages behind a piece of `n` pages -/
theorem page_add (x : Word) {o : BitVec 32} {n k : Nat} (width : n * 4096 = 2 ^ o.toNat)
    (one : (1#64 <<< o).toNat = 2 ^ o.toNat) :
    x + 1#64 <<< o + BitVec.ofNat 64 (k * 4096) = x + BitVec.ofNat 64 ((n + k) * 4096) := by
  have piece : 1#64 <<< o = BitVec.ofNat 64 (n * 4096) := by
    rw [width, ← one, BitVec.ofNat_toNat, BitVec.setWidth_eq]
  rw [piece, BitVec.add_assoc, ← BitVec.ofNat_add, Nat.add_mul]

theorem selector_aligned {x : Word} {o w : Nat} (order : w + pageBits = o) (aligned : 2 ^ o ∣ x.toNat) :
    2 ^ w ∣ (x >>> 12).toNat := by
  obtain ⟨c, hc⟩ := aligned
  have pages : x.toNat = 2 ^ w * c * 2 ^ 12 := by
    rw [hc, ← order, Nat.pow_add, Nat.mul_right_comm]
    rfl
  rw [BitVec.toNat_ushiftRight, Nat.shiftRight_eq_div_pow, pages, Nat.mul_div_cancel _ (by decide)]
  exact Nat.dvd_mul_right _ _

/-- **The delegations of a segment are its pages, in order**, aligned in source and destination. -/
theorem segment_pages (pmm : Permissions) (phys virt size : Word) (alignedP : 2 ^ pageBits ∣ phys.toNat)
    (alignedV : 2 ^ pageBits ∣ virt.toNat) (alignedS : 2 ^ pageBits ∣ size.toNat) :
    (segmentDelegates pmm phys virt size).flatMap Delegate.pages =
        (List.range (size.toNat / 4096)).map (pageOf virt phys) ∧
      ∀ c ∈ segmentDelegates pmm phys virt size,
        c.pmm = pmm ∧ 2 ^ c.ord.toNat ∣ c.ssb.toNat ∧ 2 ^ c.ord.toNat ∣ c.dsb.toNat := by
  fun_induction segmentDelegates pmm phys virt size with
  | case1 phys virt => exact ⟨rfl, fun c none => (nomatch none)⟩
  | case2 phys virt size some o ih =>
      have number : size.toNat ≠ 0 := fun zero => some (BitVec.eq_of_toNat_eq zero)
      obtain ⟨small, piece⟩ := @both_fits phys virt size some
      have value := @bothOrder_spec phys virt size some
      change o.toNat < 64 at small
      change 2 ^ o.toNat ≤ size.toNat at piece
      change o.toNat = _ at value
      obtain ⟨inP, -, pageP⟩ := Pagetable.maxOrder_spec number alignedP alignedS
      obtain ⟨inV, -, pageV⟩ := Pagetable.maxOrder_spec number alignedV alignedS
      have page : pageBits ≤ o.toNat := by
        rw [value]
        exact Nat.le_min.mpr ⟨pageP, pageV⟩
      have dvdP : 2 ^ o.toNat ∣ phys.toNat := by
        rw [value]
        exact (Nat.pow_dvd_pow 2 (Nat.min_le_left _ _)).trans inP
      have dvdV : 2 ^ o.toNat ∣ virt.toNat := by
        rw [value]
        exact (Nat.pow_dvd_pow 2 (Nat.min_le_right _ _)).trans inV
      obtain ⟨one, left⟩ := toNat_sub_piece small piece
      have order := toNat_sub_pageBits page
      have width : 2 ^ (o - 12#32).toNat * 4096 = 2 ^ o.toNat := by
        rw [← order]
        exact (Nat.pow_add 2 _ 12).symm
      obtain ⟨pages, aligned⟩ := ih (next_aligned page one alignedP) (next_aligned page one alignedV)
        (by rw [left]; exact (rest_aligned page alignedS).2)
      constructor
      · have count : size.toNat / 4096 = 2 ^ (o - 12#32).toNat + (size - 1#64 <<< o).toNat / 4096 := by
          rw [left]
          omega
        rw [List.flatMap_cons, pages, count, List.range_add, List.map_append, List.map_map]
        refine congrArg₂ (· ++ ·) (List.map_congr_left fun j inside => ?_) (List.map_congr_left fun k _ => ?_)
        · have below : j * 4096 < 2 ^ o.toNat := by
            have : j < 2 ^ (o - 12#32).toNat := List.mem_range.mp inside
            omega
          exact Prod.ext (selector_add small dvdV below) (selector_add small dvdP below)
        · rw [pageOf, page_add virt width one, page_add phys width one]
          rfl
      · intro c member
        rcases List.mem_cons.mp member with rfl | member
        · exact ⟨rfl, selector_aligned order dvdP, selector_aligned order dvdV⟩
        · exact aligned c member

/-! ## The segments of the root image -/

/-- The pages of the virtual range of a segment -/
def Ph.extent (p : Ph) : Nat := (p.vAddr.toNat % 4096 + p.fSize.toNat + 4095) / 4096

/-- What `create_root` is to do with a segment: each page of its virtual range is mapped to the corresponding physical
page, exactly once. -/
structure Maps (ra : Word) (p : Ph) (calls : List Delegate) : Prop where
  pages : calls.flatMap Delegate.pages =
    (List.range p.extent).map (pageOf (alignDn p.vAddr 4096#64) (alignDn (p.fOffs + ra) 4096#64))
  once : ((calls.flatMap Delegate.pages).map Prod.fst).Nodup

/-- `create_root` accepts the segment. -/
structure Loadable (ra : Word) (p : Ph) : Prop where
  load : p.type = 1#32
  full : p.fSize = p.mSize
  congruent : p.vAddr % 4096#64 = (p.fOffs + ra) % 4096#64

theorem dvd_alignDn (x : Word) : 2 ^ pageBits ∣ (alignDn x 4096#64).toNat := by
  have value : (alignDn x 4096#64).toNat = x.toNat / 2 ^ 12 * 2 ^ 12 := @Bits.toNat_alignDn x 12 (by decide)
  rw [value]
  exact Nat.dvd_mul_left _ _

/-- The size of a segment, as `create_root` computes it -/
theorem toNat_segmentSize (p : Ph) :
    (alignUp (p.vAddr + p.fSize) 4096#64 - alignDn p.vAddr 4096#64).toNat = p.extent * 4096 % 2 ^ 64 := by
  have down : (alignDn p.vAddr 4096#64).toNat = p.vAddr.toNat / 2 ^ 12 * 2 ^ 12 := @Bits.toNat_alignDn _ 12 (by decide)
  have up : (alignUp (p.vAddr + p.fSize) 4096#64).toNat =
      (p.vAddr + p.fSize + 4095#64).toNat / 2 ^ 12 * 2 ^ 12 := @Bits.toNat_alignDn _ 12 (by decide)
  rw [BitVec.toNat_sub, up, down, BitVec.toNat_add, BitVec.toNat_add, Ph.extent]
  change (2 ^ 64 - p.vAddr.toNat / 2 ^ 12 * 2 ^ 12 +
    ((p.vAddr.toNat + p.fSize.toNat) % 2 ^ 64 + 4095) % 2 ^ 64 / 2 ^ 12 * 2 ^ 12) % 2 ^ 64 = _
  have := p.vAddr.isLt
  have := p.fSize.isLt
  omega

/-- Fewer than 2^52 pages have different selectors. -/
theorem nodup_pages {virt phys : Word} (alignedV : 2 ^ pageBits ∣ virt.toNat) {n : Nat} (few : n ≤ 2 ^ 52) :
    (((List.range n).map (pageOf virt phys)).map Prod.fst).Nodup := by
  rw [List.map_map]
  refine List.Nodup.map_on ?_ List.nodup_range
  intro i hi k hk same
  have hi := List.mem_range.mp hi
  have hk := List.mem_range.mp hk
  have number := congrArg BitVec.toNat same
  change ((virt + BitVec.ofNat 64 (i * 4096)) >>> 12).toNat = ((virt + BitVec.ofNat 64 (k * 4096)) >>> 12).toNat at number
  rw [BitVec.toNat_ushiftRight, BitVec.toNat_ushiftRight, BitVec.toNat_add, BitVec.toNat_add, BitVec.toNat_ofNat,
    BitVec.toNat_ofNat, Nat.shiftRight_eq_div_pow, Nat.shiftRight_eq_div_pow] at number
  obtain ⟨c, hc⟩ := alignedV
  change virt.toNat = 4096 * c at hc
  have := virt.isLt
  omega

/-- **Range decomposition.**  `user_access` cuts a range of pages into naturally aligned pieces that tile it.  The loop
of `create_root` makes calls with aligned selectors for every segment that it accepts, and it maps the pages of the
segment, each once, exactly if the segment leaves a page of the address space. -/
theorem range_decomposition (base size ra : Word) (p : Ph) :
    (2 ^ pageBits ∣ base.toNat → 2 ^ pageBits ∣ size.toNat → base.toNat + size.toNat ≤ 2 ^ 64 →
      Decomposed (accessUpdates base size) base.toNat (base.toNat + size.toNat) ∧
      Tiling (fun c => c ∈ (accessUpdates base size).map Update.chunk) base.toNat (base.toNat + size.toNat) ∧
      ((accessUpdates base size).map Update.chunk).Nodup) ∧
    (Loadable ra p → ∃ calls, loadSegment ra p = .mapped calls ∧
      (∀ c ∈ calls, 2 ^ c.ord.toNat ∣ c.ssb.toNat ∧ 2 ^ c.ord.toNat ∣ c.dsb.toNat) ∧
      (Maps ra p calls ↔ p.vAddr.toNat % 4096 + p.fSize.toNat ≤ 2 ^ 64 - 4096)) := by
  constructor
  · intro alignedB alignedS fits
    have parts := access_decomposed base size alignedB alignedS fits
    exact ⟨parts, parts.tiling.1, parts.tiling.2⟩
  · rintro ⟨load, full, congruent⟩
    have accepted : loadSegment ra p = .mapped (p.delegates ra) := by
      unfold loadSegment
      rw [if_neg (not_not.mpr load), if_neg (not_or.mpr ⟨not_not.mpr full, not_not.mpr congruent⟩)]
    have size := toNat_segmentSize p
    have alignedS : 2 ^ pageBits ∣ (alignUp (p.vAddr + p.fSize) 4096#64 - alignDn p.vAddr 4096#64).toNat := by
      change 4096 ∣ _
      rw [size]
      omega
    obtain ⟨pages, aligned⟩ := segment_pages p.perm _ _ _ (dvd_alignDn (p.fOffs + ra)) (dvd_alignDn p.vAddr) alignedS
    refine ⟨p.delegates ra, accepted, fun c member => (aligned c member).2, ?_⟩
    rw [size] at pages
    have extent : p.extent = (p.vAddr.toNat % 4096 + p.fSize.toNat + 4095) / 4096 := rfl
    constructor
    · intro maps
      -- the calls map less than 2^52 pages
      have lengths := congrArg List.length (pages.symm.trans maps.pages)
      rw [List.length_map, List.length_map, List.length_range, List.length_range] at lengths
      omega
    · intro bound
      have exact_ : p.extent * 4096 % 2 ^ 64 / 4096 = p.extent := by omega
      rw [exact_] at pages
      refine ⟨pages, ?_⟩
      change ((List.flatMap Delegate.pages (segmentDelegates _ _ _ _)).map Prod.fst).Nodup
      rw [pages]
      exact nodup_pages (dvd_alignDn p.vAddr) (by omega)

/-- A segment that fills the address space but for its last byte -/
def fullSegment : Ph :=
  { type := 1#32, flags := 5#32, fOffs := 0#64, vAddr := 0#64, fSize := 0xffffffffffffffff#64, mSize := 0xffffffffffffffff#64 }

/-- `create_root` accepts it and maps nothing. -/
theorem segment_forgotten : ¬ ∀ (ra : Word) (p : Ph), Loadable ra p → ∃ calls, loadSegment ra p = .mapped calls ∧ Maps ra p calls := by
  intro all
  obtain ⟨calls, loaded, maps⟩ := all 0x1000000#64 fullSegment ⟨rfl, rfl, by decide⟩
  have size : alignUp (fullSegment.vAddr + fullSegment.fSize) 4096#64 - alignDn fullSegment.vAddr 4096#64 = 0#64 := by decide
  have nothing : loadSegment 0x1000000#64 fullSegment = .mapped [] := by
    unfold loadSegment
    rw [if_neg (by decide), if_neg (by decide), Ph.delegates]
    rw [size, segmentDelegates, if_pos rfl]
  obtain rfl := Loaded.mapped.inj (nothing.symm.trans loaded)
  have lengths := congrArg List.length maps.pages
  rw [List.length_map, List.length_range] at lengths
  exact absurd lengths (by decide)

/-- A segment of three pages, at selectors of different alignment: a call for one page and a call for two -/
example : (segmentDelegates .none 0x3000#64 0x5000#64 0x3000#64).map (fun c => (c.ssb, c.dsb, c.ord)) =
    [(3#64, 5#64, 0#32), (4#64, 6#64, 1#32)] := by
  decide +kernel

end Ranges

end Nova.Kernel
