/-
# Nova.Kernel.UserAccess — opening physical memory to user space

`Space_mem::user_access` of `inc/space_mem.hpp` maps a range of physical memory
one to one, in the largest pieces that base and size allow.  At boot these pieces
have orders that `update` does not handle (`Handles`), so `update_identity` says
what every update of any order keeps: whatever it leaves behind, a page that it
did map is mapped to itself.
-/
import Nova.Kernel.SpaceMem

namespace Nova.Kernel

open Nova.Theory.Words
open Nova.Theory.Radix

set_option autoImplicit false

/-! ## Address bits below the frame -/

/-- Address bits that end up below the frame leave the leaf stable. -/
def Format.StableOr (F : Format) : Prop :=
  ∀ l pm ca sh x, l < F.lev → F.pageAttr l pm ca sh ≠ 0#64 → Within 7 F.addrBits x →
    F.StableLeaf l (x ||| F.pageAttr l pm ca sh)

/-- Whatever is present in an x86 host page table reads back as it was read. -/
theorem hptX86_stableOr : hptX86.StableOr := by
  intro l pm ca sh x hl ne field m hm
  have api := (HptX86.pageAttr_ne_zero l pm ca sh).mp ne
  have present : (x ||| HptX86.pageAttr l pm ca sh).getLsbD 0 = true := by
    simp [HptX86.pageAttr, api]
  have nonzero : x ||| HptX86.pageAttr l pm ca sh ≠ 0#64 := or_ne_zero ne
  simp only [hptX86] at *
  have again : (HptX86.pagePm (x ||| HptX86.pageAttr l pm ca sh)).api = true := by
    simp only [HptX86.pagePm, if_neg nonzero, Permissions.api, present, Bool.or_true]
  refine ⟨(HptX86.pageAttr_ne_zero _ _ _ _).mpr again, ?_, HptX86.pageCa_pageAttr _ _ _ again, trivial⟩
  rw [HptX86.pagePm_pageAttr _ _ _ again]
  simp only [HptX86.pagePm, if_neg nonzero, present, Bool.or_self]

theorem dpt_stableOr : dpt.StableOr := by
  intro l pm ca sh x hl ne field m hm
  have some := (Dpt.pageAttr_ne_zero l pm ca sh).mp ne
  have nonzero : x ||| Dpt.pageAttr l pm ca sh ≠ 0#64 := or_ne_zero ne
  have bits : ∀ i < 7, (x ||| Dpt.pageAttr l pm ca sh).getLsbD i =
      (Dpt.pageAttr l pm ca sh).getLsbD i := by
    intro i hi
    rw [BitVec.getLsbD_or, field.bit (Or.inl hi), Bool.false_or]
  have decoded : Dpt.pagePm (x ||| Dpt.pageAttr l pm ca sh) = { w := pm.w, r := pm.r } := by
    rw [Dpt.pagePm, if_neg nonzero, bits 1 (by decide), bits 0 (by decide)]
    simp [Dpt.pageAttr, some]
  simp only [dpt] at *
  rw [decoded]
  exact ⟨(Dpt.pageAttr_ne_zero _ _ _ _).mpr some, Dpt.pagePm_pageAttr m 0#3 0#2 some, trivial, trivial⟩

/-- The address of a leaf whose address bits do not form a frame. -/
theorem Format.Lawful.addr_low {F : Format} (lawful : F.Lawful) {l : Nat} (hl : l < F.lev) {w : Word}
    (bound : w.toNat < 2 ^ F.addrBits) (pm : Permissions) (ca : Cacheability) (sh : Shareability) :
    (F.addr l (w ||| F.pageAttr l pm ca sh)).toNat =
      w.toNat / 2 ^ (l * bpl + pageBits) * 2 ^ (l * bpl + pageBits) := by
  have bits := lawful.bits_lt hl.le
  have value := toNat_and_not_lowMask w bits
  have frame : F.Frame l (w &&& ~~~ lowMask (l * bpl + pageBits)) := by
    refine ⟨by rw [value]; exact Nat.mul_mod_left _ _, ?_⟩
    rw [value]
    exact (Nat.div_mul_le_self _ _).trans_lt bound
  have split : w ||| F.pageAttr l pm ca sh = (w &&& ~~~ lowMask (l * bpl + pageBits)) |||
      (w &&& lowMask (l * bpl + pageBits) ||| F.pageAttr l pm ca sh) := by
    apply BitVec.eq_of_getLsbD_eq
    intro i hi
    simp only [BitVec.getLsbD_or, BitVec.getLsbD_and, BitVec.getLsbD_not, getLsbD_lowMask bits, hi]
    by_cases low : i < l * bpl + pageBits <;> simp [low]
  rw [split, lawful.addr_or hl.le frame, value]
  intro i low high
  rw [BitVec.getLsbD_or, BitVec.getLsbD_and, getLsbD_lowMask bits,
    lawful.attr_clear l pm ca sh hl i low high]
  simp [show ¬ i < l * bpl + pageBits by omega]

namespace Pagetable

variable {T : Pagetable}

section AnyOrder

variable (lawful : T.format.Lawful) {k : Nat} (hk : k ≤ 3) (top : k ≤ T.format.lev) {v p : Word}
  {ord : Nat} (request : T.Request v p ord) (below : min ord (k * bpl) / bpl < T.format.lev)
  (pm : Permissions) (ca : Cacheability) (sh : Shareability)
  (stable : T.format.Handles (k * bpl) ord ∨ T.format.StableOr)
include lawful hk top request below stable

/-- Every round of an update of any order writes stable leaves. -/
theorem rounds_stable {i : Nat} (hi : i < bit32 (ord - min ord (k * bpl))) :
    T.StableRound (min ord (k * bpl) / bpl) (bit32 (min ord (k * bpl) % bpl))
      (T.format.pageAttr (min ord (k * bpl) / bpl) pm ca sh)
      (nth (BitVec.ofNat 64 (bit32 (min ord (k * bpl) + pageBits))) p i) := by
  by_cases handles : T.format.Handles (k * bpl) ord
  · exact (rounds_good lawful request handles hi pm ca sh).2.1
  · have always := stable.resolve_left handles
    rcases handles_or_one T.format top with h | one
    · exact absurd h handles
    · intro ne j hj
      rw [one] at hj
      obtain rfl : j = 0 := by omega
      rw [roundEntry_zero ne]
      exact always _ pm ca sh _ below ne (nth_within lawful request hk hi)

/-- **Updates of any order** keep the invariants, and stay below the level they write. -/
theorem update_keeps {s s' : State} (wf : T.WF s) (exact_ : T.Exact s) {res : Status}
    (run : T.update (k * bpl) v p ord pm ca sh s = (res, s')) :
    T.WF s' ∧ T.Exact s' ∧ T.Frames s s' ∧
      (∀ x, (T.find s' x).1 ≤ max (T.find s x).1 (min ord (k * bpl) / bpl)) ∧
      ∀ m, min ord (k * bpl) / bpl < m → T.Steady m s s' := by
  have rounds := fun i (hi : i < bit32 (ord - min ord (k * bpl))) =>
    rounds_keep lawful request hk top pm ca sh (fun _ => below) hi
  have stableRounds := fun i (hi : i < bit32 (ord - min ord (k * bpl))) =>
    rounds_stable lawful hk top request below pm ca sh stable hi
  have effect := updateLoop_spec lawful below.le _ v p s res s' wf rounds run
  have levels := update_level lawful wf pm ca sh below.le rounds
  have steady := fun m (high : min ord (k * bpl) / bpl < m) =>
    update_steady lawful wf pm ca sh below.le rounds high
  rw [run] at levels steady
  exact ⟨effect.wf, effect.exact_ exact_ stableRounds, effect.frames, levels, steady⟩

end AnyOrder

section Identity

variable (lawful : T.format.Lawful) {k : Nat} (hk : k ≤ 3) (top : k ≤ T.format.lev) {v : Word}
  {ord : Nat} (request : T.Request v v ord) (below : min ord (k * bpl) / bpl < T.format.lev)
  (pm : Permissions) (ca : Cacheability) (sh : Shareability)
include lawful hk top request below

/-- What a round writes maps the covered addresses to themselves. -/
theorem written_identity {i : Nat} (hi : i < bit32 (ord - min ord (k * bpl))) {x : Word}
    (covered : Covered (min ord (k * bpl) / bpl) (bit32 (min ord (k * bpl) % bpl))
      (nth (BitVec.ofNat 64 (bit32 (min ord (k * bpl) + pageBits))) v i) x) :
    T.written (min ord (k * bpl) / bpl) (T.format.pageAttr (min ord (k * bpl) / bpl) pm ca sh)
        (nth (BitVec.ofNat 64 (bit32 (min ord (k * bpl) + pageBits))) v i)
        (nth (BitVec.ofNat 64 (bit32 (min ord (k * bpl) + pageBits))) v i) x = none ∨
      T.format.pageAttr 0 pm ca sh ≠ 0#64 ∧ ∃ d, T.written (min ord (k * bpl) / bpl)
        (T.format.pageAttr (min ord (k * bpl) / bpl) pm ca sh)
        (nth (BitVec.ofNat 64 (bit32 (min ord (k * bpl) + pageBits))) v i)
        (nth (BitVec.ofNat 64 (bit32 (min ord (k * bpl) + pageBits))) v i) x = some (x, d) := by
  by_cases handles : T.format.Handles (k * bpl) ord
  · rw [(rounds_good lawful request handles hi pm ca sh).2.2 x covered, target]
    split
    · exact Or.inl rfl
    · exact Or.inr ⟨‹_›, _, by rw [BitVec.add_comm, BitVec.sub_add_cancel]⟩
  · rw [(handles_or_one T.format top).resolve_left handles] at covered
    by_cases zap : T.format.pageAttr (min ord (k * bpl) / bpl) pm ca sh = 0#64
    · left
      simp [written, roundEntry, zap, entryFind, translate_hole]
    · right
      have same : block (min ord (k * bpl) / bpl) x = block (min ord (k * bpl) / bpl)
          (nth (BitVec.ofNat 64 (bit32 (min ord (k * bpl) + pageBits))) v i) := by
        obtain ⟨low, high⟩ := covered
        omega
      have field := nth_within lawful request hk hi
      have good := lawful.leaf_or below field zap
      have value := lawful.addr_low below field.2 pm ca sh
      refine ⟨fun zero => zap (lawful.attr_zero 0 _ _ _ _ zero), T.format.decode (min ord (k * bpl) / bpl)
        (nth (BitVec.ofNat 64 (bit32 (min ord (k * bpl) + pageBits))) v i |||
          T.format.pageAttr (min ord (k * bpl) / bpl) pm ca sh), ?_⟩
      rw [written, same, Nat.sub_self, roundEntry_zero zap, entryFind,
        if_neg (Format.kind_leaf_iff.mp good.leaf).1, Format.translate]
      refine congrArg (fun q => some (q, _)) (BitVec.eq_of_toNat_eq ?_)
      rw [offsMask, toNat_or_low (lawful.addr_frame below.le _) x (lawful.bits_lt below.le), value]
      unfold block at same
      rw [← same, Nat.mul_comm]
      exact Nat.div_add_mod _ _

/-- **One-to-one updates of any order**: whatever such an update leaves behind, an
address is translated as before, not at all, or to itself. -/
theorem update_identity (stable : T.format.Handles (k * bpl) ord ∨ T.format.StableOr) {s s' : State}
    (wf : T.WF s) (exact_ : T.Exact s) {res : Status}
    (run : T.update (k * bpl) v v ord pm ca sh s = (res, s')) :
    ∀ x, T.Inside x → (¬ InRange v ord x → T.translation s' x = T.translation s x) ∧
      (T.translation s' x = T.translation s x ∨ T.translation s' x = none ∨
        T.format.pageAttr 0 pm ca sh ≠ 0#64 ∧ ∃ d, T.translation s' x = some (x, d)) := by
  have rounds := fun i (hi : i < bit32 (ord - min ord (k * bpl))) =>
    rounds_keep lawful request hk top pm ca sh (fun _ => below) hi
  have stableRounds := fun i (hi : i < bit32 (ord - min ord (k * bpl))) =>
    rounds_stable lawful hk top request below pm ca sh stable hi
  have effect := updateLoop_spec lawful below.le _ v v s res s' wf rounds run
  refine fun x hx => ⟨fun out => ?_, ?_⟩
  · refine (effect.outside exact_ stableRounds x hx fun i hi covered => out ?_).1
    exact covered_inRange lawful request (handles_or_one T.format top) hi covered
  · rcases effect.either exact_ stableRounds x hx with same | ⟨i, hi, covered, value⟩
    · exact Or.inl same
    · rw [value]
      exact Or.inr (written_identity lawful hk top request below pm ca sh hi covered)

end Identity

/-! ## Pieces of a range -/

/-- `bit_scan_forward`, of a number other than 0 -/
def bitScanForward : Nat → Nat
  | 0 => 0
  | n + 1 => if (n + 1) % 2 = 1 then 0 else bitScanForward ((n + 1) / 2) + 1

/-- `max_order` -/
def maxOrder (base size : Nat) : Nat :=
  if base ≠ 0 then min (bitScanForward base) size.log2 else size.log2

/-- `Paging::U | Paging::API` -/
def userApi : Permissions :=
  { u := true, xs := true, xu := true, w := true, r := true }

/-- `Space_mem::user_access` -/
def userAccess (T : Pagetable) (lim : Nat) (a : Bool) (ca : Cacheability) (sh : Shareability)
    (addr size : Nat) (s : State) : State :=
  if size = 0 then s
  else
    let o := maxOrder addr size
    let pm := if a then userApi else .none
    userAccess T lim a ca sh (addr + 2 ^ o) (size - 2 ^ o)
      (T.update lim (BitVec.ofNat 64 addr) (BitVec.ofNat 64 addr) (o - pageBits) pm ca sh s).2
termination_by size
decreasing_by
  have := Nat.two_pow_pos (maxOrder addr size)
  omega

theorem pow_bitScanForward_dvd : ∀ n : Nat, n ≠ 0 → 2 ^ bitScanForward n ∣ n
  | 0, ne => absurd rfl ne
  | n + 1, _ => by
      rw [bitScanForward]
      split
      · exact Nat.one_dvd _
      · rename_i even
        have half : n + 1 = (n + 1) / 2 * 2 := by omega
        have below := pow_bitScanForward_dvd ((n + 1) / 2) (by omega)
        conv_rhs => rw [half]
        rw [Nat.pow_succ]
        exact Nat.mul_dvd_mul_right below 2

theorem le_bitScanForward : ∀ (k n : Nat), n ≠ 0 → 2 ^ k ∣ n → k ≤ bitScanForward n
  | 0, _, _, _ => Nat.zero_le _
  | k + 1, 0, ne, _ => absurd rfl ne
  | k + 1, n + 1, _, divides => by
      obtain ⟨c, hc⟩ := divides
      have even : (n + 1) % 2 = 0 := by
        rw [hc, Nat.pow_succ, Nat.mul_assoc, Nat.mul_left_comm]
        exact Nat.mul_mod_right _ _
      have half : (n + 1) / 2 = 2 ^ k * c := by
        rw [hc, Nat.pow_succ, Nat.mul_assoc, Nat.mul_left_comm]
        exact Nat.mul_div_cancel_left _ (by decide)
      rw [bitScanForward, if_neg (by omega)]
      exact Nat.succ_le_succ (le_bitScanForward k _ (by omega) ⟨c, half⟩)

/-- A piece is aligned, fits into the range, and is at least a page. -/
theorem maxOrder_spec {base size : Nat} (some : size ≠ 0) (alignedB : 2 ^ pageBits ∣ base)
    (alignedS : 2 ^ pageBits ∣ size) :
    2 ^ maxOrder base size ∣ base ∧ 2 ^ maxOrder base size ≤ size ∧ pageBits ≤ maxOrder base size := by
  have fits : 2 ^ size.log2 ≤ size := Nat.log2_self_le some
  have large : pageBits ≤ size.log2 :=
    (Nat.le_log2 some).mpr (Nat.le_of_dvd (Nat.pos_of_ne_zero some) alignedS)
  unfold maxOrder
  split
  · rename_i ne
    refine ⟨(Nat.pow_dvd_pow 2 (Nat.min_le_left _ _)).trans (pow_bitScanForward_dvd base ne),
      (Nat.pow_le_pow_right (by decide) (Nat.min_le_right _ _)).trans fits, ?_⟩
    exact le_min (le_bitScanForward pageBits base ne alignedB) large
  · rename_i zero
    rw [not_not] at zero
    exact ⟨zero ▸ Nat.dvd_zero _, fits, large⟩

/-- What opening or closing a range does. -/
structure Opens (T : Pagetable) (a : Bool) (addr size : Nat) (s s' : State) : Prop where
  wf : T.WF s'
  exact_ : T.Exact s'
  frames : T.Frames s s'
  level : ∀ x, (T.find s x).1 < T.format.lev → (T.find s' x).1 < T.format.lev
  outside : ∀ x, T.Inside x → ¬ (addr ≤ x.toNat ∧ x.toNat < addr + size) →
    T.translation s' x = T.translation s x
  identity : ∀ x, T.Inside x → T.translation s' x = T.translation s x ∨
    T.translation s' x = none ∨ a = true ∧ ∃ d, T.translation s' x = some (x, d)

/-- **`user_access` maps one to one**, on a page table of three levels, or of four with
a format whose leaves stay stable. -/
theorem userAccess_opens (lawful : T.format.Lawful) (three : 3 ≤ T.format.lev)
    (stable : T.format.lev = 3 ∨ T.format.StableOr) {k : Nat} (hk : k ≤ 3) (a : Bool)
    (ca : Cacheability) (sh : Shareability) : ∀ (addr size : Nat) (s : State),
    2 ^ pageBits ∣ addr → 2 ^ pageBits ∣ size →
    addr + size ≤ 2 ^ (T.format.lev * bpl + pageBits) →
    size < 2 ^ (T.format.lev * bpl + pageBits) → T.WF s → T.Exact s →
    T.Opens a addr size s (T.userAccess (k * bpl) a ca sh addr size s)
  | addr, size, s, alignedB, alignedS, fits, part, wf, exact_ => by
      rw [userAccess]
      by_cases none : size = 0
      · rw [if_pos none]
        exact ⟨wf, exact_, .refl s, fun _ h => h, fun _ _ _ => rfl, fun _ _ => Or.inl rfl⟩
      · rw [if_neg none]
        dsimp only
        obtain ⟨aligned, piece, page⟩ := maxOrder_spec none alignedB alignedS
        have pos := Nat.two_pow_pos (maxOrder addr size)
        have width : 2 ^ (T.format.lev * bpl + pageBits) ≤ 2 ^ 64 :=
          Nat.pow_le_pow_right (by decide) (lawful.bits_lt (le_refl _)).le
        have outWidth := Nat.pow_le_pow_right (n := 2) (by decide) lawful.addr_wide
        have base : (BitVec.ofNat 64 addr).toNat = addr := by
          rw [BitVec.toNat_ofNat, Nat.mod_eq_of_lt (by omega)]
        have order : maxOrder addr size - pageBits + pageBits = maxOrder addr size := by omega
        have small : maxOrder addr size < T.format.lev * bpl + pageBits :=
          (Nat.pow_lt_pow_iff_right (by decide)).mp (piece.trans_lt part)
        have request : T.Request (BitVec.ofNat 64 addr) (BitVec.ofNat 64 addr)
            (maxOrder addr size - pageBits) := by
          refine ⟨?_, ?_, ?_, ?_⟩ <;> rw [base, order]
          · exact Nat.mod_eq_zero_of_dvd aligned
          · omega
          · exact Nat.mod_eq_zero_of_dvd aligned
          · omega
        have lev := lawful.lev_le
        have below : min (maxOrder addr size - pageBits) (k * bpl) / bpl < T.format.lev := by
          simp only [bpl, pageBits] at small ⊢
          omega
        have handled : T.format.Handles (k * bpl) (maxOrder addr size - pageBits) ∨
            T.format.StableOr := by
          refine stable.imp_left fun few => ?_
          simp only [Format.Handles, bpl, pageBits] at small below ⊢
          omega
        generalize run : T.update (k * bpl) (BitVec.ofNat 64 addr) (BitVec.ofNat 64 addr)
          (maxOrder addr size - pageBits) (if a then userApi else .none) ca sh s = out
        obtain ⟨res, s1⟩ := out
        obtain ⟨wf1, exact1, frames1, level1, -⟩ := update_keeps lawful hk (by omega) request below _
          ca sh handled wf exact_ run
        have effect1 := update_identity lawful hk (by omega) request below _ ca sh handled wf exact_ run
        have pieces : 2 ^ pageBits ∣ 2 ^ maxOrder addr size := Nat.pow_dvd_pow 2 page
        have rest := userAccess_opens lawful three stable hk a ca sh (addr + 2 ^ maxOrder addr size)
          (size - 2 ^ maxOrder addr size) s1 (Nat.dvd_add alignedB pieces)
          (Nat.dvd_sub alignedS pieces) (by omega) (by omega) wf1 exact1
        refine ⟨rest.wf, rest.exact_, frames1.trans rest.frames,
          fun x h => rest.level x (lt_of_le_of_lt (level1 x) (max_lt h below)), fun x hx out => ?_,
          fun x hx => ?_⟩
        · rw [rest.outside x hx (by omega), (effect1 x hx).1]
          rintro ⟨low, high⟩
          rw [base] at low
          rw [base, order] at high
          omega
        · rcases rest.identity x hx with same | changed
          · rw [same]
            refine (effect1 x hx).2.imp_right (Or.imp_right fun changed => ⟨?_, changed.2⟩)
            cases a with
            | true => rfl
            | false => exact absurd (lawful.attr_none 0 ca sh) changed.1
          · exact Or.inr changed
  termination_by _ size => size
  decreasing_by
    have := Nat.two_pow_pos (maxOrder addr size)
    omega

end Pagetable

end Nova.Kernel
