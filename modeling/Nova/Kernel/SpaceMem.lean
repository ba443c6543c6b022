/-
# Nova.Kernel.SpaceMem — delegation between memory spaces

`Space_mem<T>::delegate` of `src/space_mem.cpp`, for the host, guest and DMA
spaces of both architectures.  The loop looks up one source page at a time and
updates as many destination pages as the source leaf, cut to the requested order,
has; `delegate` returns with the calls of `update` that it made.

The source may be the destination.  Then the loop reads the page table that it
writes, but each page before it is written: the two ranges are aligned to their
size, so they are equal or disjoint.  That the bases are aligned in the middle of
the loop is `next_aligned`: a leaf that starts before the current page would also
hold the page before it, which was visited as part of a smaller one.

`delegate_faithful` states the contract in terms of `lookup`.
-/
import Nova.Kernel.PtabPages

namespace Nova.Kernel

open Nova.Theory.Words
open Nova.Theory.Radix

set_option autoImplicit false

/-! ## The model -/

/-- The two architectures, with the flag that their guest format depends on. -/
inductive Arch where
  | x86 (mbec : Bool)
  | arm (xnx : Bool)
  deriving DecidableEq

/-- `Space_hst`, `Space_gst`, `Space_dma` -/
inductive MemKind where
  | hst | gst | dma
  deriving DecidableEq

/-- The entry format of the page table of a space. -/
def Arch.fmt : Arch → MemKind → Fmt
  | .x86 _, .hst => .hptX86
  | .x86 mbec, .gst => .ept mbec
  | .x86 _, .dma => .dpt
  | .arm xnx, _ => .npt xnx

/-- `num`: host spaces on x86 leave the upper half to the kernel. -/
def Arch.num : Arch → MemKind → Nat
  | .x86 _, .hst => 2 ^ (4 * bpl - 1)
  | .x86 _, _ => 2 ^ (4 * bpl)
  | .arm _, _ => 2 ^ (3 * bpl)

/-- The permissions that pass a mask: kernel memory cannot be delegated. -/
def Permissions.granted (pm pmm : Permissions) : Permissions :=
  let pm := pm.land { pmm with k := true, u := true }
  if pm.k then .none else pm

/-- `n << PAGE_BITS` -/
def pageAddr (n : Nat) : Word := BitVec.ofNat 64 n <<< pageBits

/-- The arguments of a call of `update`. -/
structure Grant where
  d : Word
  p : Word
  o : Nat
  pm : Permissions
  ca : Cacheability
  sh : Shareability

/-- What does not change while `delegate` runs; `nova` says that the source is
`Space_hst::nova`, `lim` is the leaf limit of the destination's class, and `junk`
is what `src_ca` and `src_sh` hold before the lookup of a page. -/
structure Delegation where
  source : Pagetable
  dest : Pagetable
  lim : Nat
  nova : Bool
  ord : Nat
  pmm : Permissions
  junk : Nat → Cacheability × Shareability

namespace Delegation

variable (X : Delegation)

/-- The call that a round of the loop makes for the page `src`. -/
def grant (src dst : Nat) (ca : Cacheability) (sh : Shareability) (s : State) : Grant :=
  let found := X.source.lookup (pageAddr src) (X.junk src).1 (X.junk src).2 s
  let o := min found.o X.ord
  { d := pageAddr dst &&& ~~~ offsMask o
    p := found.p &&& ~~~ offsMask o
    o
    pm := found.pm.granted X.pmm
    ca := if X.nova then ca else found.ca
    sh := if X.nova then sh else found.sh }

/-- The loop: its result, and the calls made, each with its source page. -/
def loop (sEnd : Nat) (src dst : Nat) (ca : Cacheability) (sh : Shareability) (s : State) :
    Status × State × List (Nat × Grant) :=
  if src < sEnd then
    let g := X.grant src dst ca sh s
    match X.dest.update X.lim g.d g.p g.o g.pm g.ca g.sh s with
    | (.success, s') =>
        let r := loop sEnd (src + 2 ^ g.o) (dst + 2 ^ g.o) g.ca g.sh s'
        (r.1, r.2.1, (src, g) :: r.2.2)
    | (res, s') => (res, s', [(src, g)])
  else (.success, s, [])
termination_by sEnd - src
decreasing_by
  have : 0 < 2 ^ (X.grant src dst ca sh s).o := Nat.two_pow_pos _
  omega

/-- `Space_mem<T>::delegate`.  Selectors are 52-bit fields of a hypercall, so that the
sums do not wrap. -/
def delegate (A : Arch) (kind : MemKind) (ssb dsb : Nat) (ca : Cacheability) (sh : Shareability)
    (s : State) : Status × State × List (Nat × Grant) :=
  if ssb + 2 ^ X.ord > A.num .hst ∨ dsb + 2 ^ X.ord > A.num kind then (.badPar, s, [])
  else
    let r := X.loop (ssb + 2 ^ X.ord) ssb dsb ca sh s
    (r.1, r.2.1.freeWait, r.2.2)

end Delegation

/-! ## Page tables that share a memory -/

namespace Pagetable

/-- Two page tables without a common table or slot. -/
structure Apart (T U : Pagetable) (s : State) : Prop where
  pages : ∀ page ∈ (T.tree s).pages, page ∉ (U.tree s).pages
  left : T.root.1 ∉ (U.tree s).pages
  right : U.root.1 ∉ (T.tree s).pages
  roots : T.root ≠ U.root

variable {T U : Pagetable} {s s' : State}

theorem Apart.symm (apart : T.Apart U s) : U.Apart T s :=
  ⟨fun page hU hT => apart.pages page hT hU, apart.right, apart.left, apart.roots.symm⟩

/-- The other page table does not notice what happens in this one. -/
theorem Apart.tree (apart : T.Apart U s) (wf : U.WF s) (frames : T.Frames s s') :
    s'.load U.root = s.load U.root ∧ U.tree s' = U.tree s := by
  have root : s'.load U.root = s.load U.root :=
    frames.cells U.root wf.root_live apart.right apart.roots.symm
  refine ⟨root, ?_⟩
  unfold Pagetable.tree
  rw [root]
  refine treeOf_congr U.format.lev _ fun page member => funext fun i => ?_
  refine frames.cells (page, i) (wf.owned page member) (fun h => apart.pages page h member) ?_
  rintro same
  exact apart.left (same ▸ member)

theorem Apart.wf (apart : T.Apart U s) (wf : U.WF s) (frames : T.Frames s s') : U.WF s' := by
  obtain ⟨root, tree⟩ := apart.tree wf frames
  refine ⟨by rw [tree]; exact wf.nodup, ?_, frames.live _ wf.root_live,
    by rw [tree]; exact wf.root_apart, by rw [tree]; exact wf.leaves,
    by rw [root]; exact wf.root_small⟩
  rw [tree]
  exact fun page member => frames.live page (wf.owned page member)

theorem Apart.exact_ (apart : T.Apart U s) (wf : U.WF s) (exact_ : U.Exact s)
    (frames : T.Frames s s') : U.Exact s' := by
  unfold Exact
  rw [(apart.tree wf frames).2]
  exact exact_

theorem Apart.find (apart : T.Apart U s) (wf : U.WF s) (frames : T.Frames s s') (x : Word) :
    U.find s' x = U.find s x := by
  unfold Pagetable.find
  rw [(apart.tree wf frames).2]

theorem Apart.keep (apart : T.Apart U s) (wfU : U.WF s) (frames : T.Frames s s') :
    T.Apart U s' := by
  have tree := (apart.tree wfU frames).2
  refine ⟨fun page member inU => ?_, ?_, fun member => ?_, apart.roots⟩
  · rw [tree] at inU
    rcases frames.pages page member with old | fresh
    · exact apart.pages page old inU
    · exact fresh (wfU.owned page inU)
  · rw [tree]
    exact apart.left
  · rcases frames.pages _ member with old | fresh
    · exact apart.right old
    · exact fresh wfU.root_live

end Pagetable

/-! ## One round -/

theorem toNat_pageAddr {n : Nat} (hn : n < 2 ^ 52) : (pageAddr n).toNat = n * 2 ^ pageBits := by
  rw [pageAddr, BitVec.toNat_shiftLeft, BitVec.toNat_ofNat, Nat.shiftLeft_eq, Nat.mod_mul_mod,
    Nat.mod_eq_of_lt]
  simp only [pageBits]
  omega

/-- Clearing the offset of an aligned address changes nothing. -/
theorem and_not_offsMask {o : Nat} {w : Word} (ho : o + pageBits < 64)
    (aligned : w.toNat % 2 ^ (o + pageBits) = 0) : w &&& ~~~ offsMask o = w := by
  apply BitVec.eq_of_toNat_eq
  rw [offsMask, toNat_and_not_lowMask w ho, Nat.div_mul_cancel (Nat.dvd_of_mod_eq_zero aligned)]

/-- The translation that a delegation makes of the source's. -/
def Delegation.copy (X : Delegation) (ca : Cacheability) (sh : Shareability) :
    Translation → Translation
  | none => none
  | some (q, pm, ca', sh') =>
      let pm := pm.granted X.pmm
      let ca := if X.nova then ca else ca'
      let sh := if X.nova then sh else sh'
      if X.dest.format.pageAttr 0 pm ca sh = 0#64 then none
      else some (q, X.dest.format.encoded pm ca sh)

theorem Permissions.granted_none (pmm : Permissions) : Permissions.none.granted pmm = .none := by
  simp [granted, land, none]

/-- Quotient and remainder inside an aligned part of a block. -/
theorem div_mod_part {m n A y : Nat} (unit : m ∣ n) (aligned : m ∣ A) (low : A ≤ y) (high : y < A + m) :
    y / n = A / n ∧ y % n = A % n + (y - A) := by
  obtain ⟨k, rfl⟩ := unit
  obtain ⟨c, rfl⟩ := aligned
  have quotient : y / m = c := by
    apply Nat.div_eq_of_lt_le
    · rw [Nat.mul_comm]; exact low
    · rw [Nat.succ_mul, Nat.mul_comm c]; exact high
  have same : y / (m * k) = m * c / (m * k) := by
    have pos : 0 < m := by omega
    rw [← Nat.div_div_eq_div_mul, ← Nat.div_div_eq_div_mul, quotient, Nat.mul_div_cancel_left c pos]
  refine ⟨same, ?_⟩
  have whole := Nat.div_add_mod y (m * k)
  have base := Nat.div_add_mod (m * c) (m * k)
  rw [same] at whole
  omega

/-- The last aligned part of a block ends with the block. -/
theorem mod_add_le {m n A : Nat} (unit : m ∣ n) (aligned : m ∣ A) (pos : 0 < n) :
    m ∣ A % n ∧ A % n + m ≤ n := by
  have divides : m ∣ A % n := (Nat.dvd_mod_iff unit).mpr aligned
  refine ⟨divides, ?_⟩
  obtain ⟨k, hk⟩ := unit
  obtain ⟨c, hc⟩ := divides
  have small := Nat.mod_lt A pos
  rw [hc, hk] at small ⊢
  have : c < k := Nat.lt_of_mul_lt_mul_left small
  rw [← Nat.mul_succ]
  exact Nat.mul_le_mul_left m this

namespace Delegation

section Round

variable (X : Delegation) (lawfulS : X.source.format.Lawful) (lawfulD : X.dest.format.Lawful)
  (width : X.source.format.addrBits = X.dest.format.addrBits) {a b : Nat} (ca : Cacheability)
  (sh : Shareability) (s : State)

/-- The order of a round that visits the page `a`. -/
def order (a : Nat) (s : State) : Nat :=
  min ((X.source.find s (pageAddr a)).1 * bpl) X.ord

include lawfulS in
theorem grant_o : (X.grant a b ca sh s).o = X.order a s := by
  simp only [grant, order, Pagetable.lookup_translation lawfulS]
  cases X.source.translation s (pageAddr a) <;> rfl

/-- What a round at the pages `a` and `b` relies on. -/
structure Ready (a b : Nat) (s : State) : Prop where
  level : (X.source.find s (pageAddr a)).1 < X.source.format.lev
  aligned : 2 ^ X.order a s ∣ a
  aligned' : 2 ^ X.order a s ∣ b
  fits : a + 2 ^ X.order a s ≤ 2 ^ (X.source.format.lev * bpl)
  fits' : b + 2 ^ X.order a s ≤ 2 ^ (X.dest.format.lev * bpl)

variable {X} (ready : X.Ready a b s)
include lawfulS ready

theorem Ready.bounds (lawfulD : X.dest.format.Lawful) : X.order a s + pageBits < 64 ∧
    (pageAddr a).toNat = a * 2 ^ pageBits ∧ (pageAddr b).toNat = b * 2 ^ pageBits ∧
    2 ^ (X.order a s + pageBits) ∣ a * 2 ^ pageBits ∧
    2 ^ (X.order a s + pageBits) ∣ b * 2 ^ pageBits := by
  have small : X.order a s ≤ (X.source.find s (pageAddr a)).1 * bpl := Nat.min_le_left _ _
  have bits := lawfulS.bits_lt ready.level.le
  have source : 2 ^ (X.source.format.lev * bpl) ≤ 2 ^ 51 := by
    have := lawfulS.bits_lt (le_refl X.source.format.lev)
    exact Nat.pow_le_pow_right (by decide) (by simp only [pageBits] at this; omega)
  have dest : 2 ^ (X.dest.format.lev * bpl) ≤ 2 ^ 51 := by
    have := lawfulD.bits_lt (le_refl X.dest.format.lev)
    exact Nat.pow_le_pow_right (by decide) (by simp only [pageBits] at this; omega)
  have := ready.fits
  have := ready.fits'
  have := Nat.two_pow_pos (X.order a s)
  refine ⟨by omega, toNat_pageAddr (by omega), toNat_pageAddr (by omega), ?_, ?_⟩
  · rw [Nat.pow_add]
    exact Nat.mul_dvd_mul_right ready.aligned _
  · rw [Nat.pow_add]
    exact Nat.mul_dvd_mul_right ready.aligned' _

/-- The pages of a round are searched alike. -/
theorem Ready.find_same (lawfulD : X.dest.format.Lawful) {y : Word} (low : a * 2 ^ pageBits ≤ y.toNat)
    (high : y.toNat < a * 2 ^ pageBits + 2 ^ (X.order a s + pageBits)) :
    X.source.find s y = X.source.find s (pageAddr a) := by
  obtain ⟨-, ha, -, aligned, -⟩ := ready.bounds lawfulS s lawfulD
  have room : a * 2 ^ pageBits + 2 ^ (X.order a s + pageBits) ≤
      2 ^ (X.source.format.lev * bpl + pageBits) := by
    rw [Nat.pow_add, Nat.pow_add, ← Nat.add_mul]
    exact Nat.mul_le_mul_right _ ready.fits
  have unit : 2 ^ (X.order a s + pageBits) ∣
      2 ^ ((X.source.find s (pageAddr a)).1 * bpl + pageBits) :=
    Nat.pow_dvd_pow 2 (Nat.add_le_add_right (Nat.min_le_left _ _) _)
  have pos := Nat.two_pow_pos (X.order a s + pageBits)
  refine Pagetable.find_same ((Pagetable.sameSlot_iff ready.level.le ?_ ?_).mpr ?_)
  · rw [Pagetable.Inside]; omega
  · rw [Pagetable.Inside, ha]; omega
  · rw [Pagetable.block, Pagetable.block, ha]
    exact (div_mod_part unit aligned low high).1

include lawfulD width

/-- The frame that a round passes on is that of its first page. -/
theorem Ready.frame {l : Nat} {e : Word} (found : X.source.find s (pageAddr a) = (l, some e)) :
    (X.grant a b ca sh s).p = X.source.format.addr l e ||| pageAddr a &&& offsMask (l * bpl) ∧
      (X.grant a b ca sh s).p.toNat =
        (X.source.format.addr l e).toNat + a * 2 ^ pageBits % 2 ^ (l * bpl + pageBits) ∧
      (X.grant a b ca sh s).p.toNat % 2 ^ (X.order a s + pageBits) = 0 ∧
      (X.grant a b ca sh s).p.toNat + 2 ^ (X.order a s + pageBits) ≤ 2 ^ X.dest.format.addrBits := by
  obtain ⟨bits, ha, -, aligned, -⟩ := ready.bounds lawfulS s lawfulD
  have hl : l < X.source.format.lev := by have := ready.level; rwa [found] at this
  have unit : 2 ^ (X.order a s + pageBits) ∣ 2 ^ (l * bpl + pageBits) := by
    refine Nat.pow_dvd_pow 2 (Nat.add_le_add_right ?_ _)
    rw [order, found]
    exact Nat.min_le_left _ _
  have frame := lawfulS.addr_frame hl.le e
  obtain ⟨divides, last⟩ := mod_add_le unit aligned (Nat.two_pow_pos _)
  have value : (X.source.format.addr l e ||| pageAddr a &&& offsMask (l * bpl)).toNat =
      (X.source.format.addr l e).toNat + a * 2 ^ pageBits % 2 ^ (l * bpl + pageBits) := by
    rw [offsMask, toNat_or_low frame (pageAddr a) (lawfulS.bits_lt hl.le), ha]
  have unitP : 2 ^ (X.order a s + pageBits) ∣
      (X.source.format.addr l e).toNat + a * 2 ^ pageBits % 2 ^ (l * bpl + pageBits) :=
    Nat.dvd_add (unit.trans (Nat.dvd_of_mod_eq_zero frame.1)) divides
  have p : (X.grant a b ca sh s).p = X.source.format.addr l e ||| pageAddr a &&& offsMask (l * bpl) := by
    have cleared : (X.grant a b ca sh s).p =
        (X.source.format.addr l e ||| pageAddr a &&& offsMask (l * bpl)) &&&
          ~~~ offsMask (X.order a s) := by
      rw [← grant_o X lawfulS (b := b) ca sh s]
      simp only [grant, Pagetable.lookup_eq lawfulS, found, Pagetable.Lookup.ofFind]
    rw [cleared]
    exact and_not_offsMask bits (by rw [value]; exact Nat.mod_eq_zero_of_dvd unitP)
  refine ⟨p, by rw [p, value], by rw [p, value]; exact Nat.mod_eq_zero_of_dvd unitP, ?_⟩
  have room := lawfulS.addr_room hl.le e (d := 2 ^ (l * bpl + pageBits) - 1)
    (by have := Nat.two_pow_pos (l * bpl + pageBits); omega)
  rw [p, value, ← width]
  omega

/-- Every round is a request that `update` accepts. -/
theorem Ready.request : (X.grant a b ca sh s).d.toNat = b * 2 ^ pageBits ∧
    X.dest.Request (X.grant a b ca sh s).d (X.grant a b ca sh s).p (X.order a s) := by
  obtain ⟨bits, -, hb, -, aligned⟩ := ready.bounds lawfulS s lawfulD
  have d : (X.grant a b ca sh s).d = pageAddr b := by
    have cleared : (X.grant a b ca sh s).d = pageAddr b &&& ~~~ offsMask (X.order a s) := by
      rw [← grant_o X lawfulS (b := b) ca sh s]
      rfl
    rw [cleared]
    exact and_not_offsMask bits (by rw [hb]; exact Nat.mod_eq_zero_of_dvd aligned)
  have frame : (X.grant a b ca sh s).p.toNat % 2 ^ (X.order a s + pageBits) = 0 ∧
      (X.grant a b ca sh s).p.toNat + 2 ^ (X.order a s + pageBits) ≤ 2 ^ X.dest.format.addrBits := by
    cases h : X.source.find s (pageAddr a) with
    | mk l leaf =>
        cases leaf with
        | some e => exact (ready.frame lawfulS lawfulD width ca sh s h).2.2
        | none =>
            have zero : (X.grant a b ca sh s).p = 0#64 := by
              simp only [grant, Pagetable.lookup_eq lawfulS, h, Pagetable.Lookup.ofFind]
              exact BitVec.zero_and
            have order : X.order a s + pageBits ≤ X.dest.format.addrBits := by
              have := Nat.min_le_left ((X.source.find s (pageAddr a)).1 * bpl) X.ord
              have := lawfulS.width_le ready.level.le
              rw [Delegation.order, ← width]
              omega
            rw [zero, BitVec.toNat_zero, Nat.zero_mod, Nat.zero_add]
            exact ⟨rfl, Nat.pow_le_pow_right (by decide) order⟩
  rw [d]
  refine ⟨hb, by rw [hb]; exact Nat.mod_eq_zero_of_dvd aligned, ?_, frame.1, frame.2⟩
  rw [hb, Nat.pow_add, Nat.pow_add, ← Nat.add_mul]
  exact Nat.mul_le_mul_right _ ready.fits'

/-- **A round asks for the copy of its source pages.** -/
theorem Ready.target {x y : Word} (inRange : InRange (X.grant a b ca sh s).d (X.order a s) x)
    (same : y.toNat + b * 2 ^ pageBits = x.toNat + a * 2 ^ pageBits) :
    X.dest.target (X.grant a b ca sh s).d (X.grant a b ca sh s).p (X.grant a b ca sh s).pm
      (X.grant a b ca sh s).ca (X.grant a b ca sh s).sh x = X.copy ca sh (X.source.translation s y) := by
  obtain ⟨hd, request⟩ := ready.request lawfulS lawfulD width ca sh s
  obtain ⟨bits, ha, hb, aligned, -⟩ := ready.bounds lawfulS s lawfulD
  obtain ⟨low, high⟩ := inRange
  rw [hd] at low high
  have found := ready.find_same lawfulS s lawfulD (y := y) (by omega) (by omega)
  rw [Pagetable.translation, found, Pagetable.target]
  cases h : X.source.find s (pageAddr a) with
  | mk l leaf =>
      cases leaf with
      | none =>
          have pm : (X.grant a b ca sh s).pm = .none := by
            simp only [grant, Pagetable.lookup_eq lawfulS, h, Pagetable.Lookup.ofFind]
            exact Permissions.granted_none X.pmm
          rw [pm, if_pos (lawfulD.attr_none _ _ _)]
          rfl
      | some e =>
          have attrs : (X.grant a b ca sh s).pm = (X.source.format.pagePm e).granted X.pmm ∧
              (X.grant a b ca sh s).ca = (if X.nova then ca else X.source.format.pageCa l e) ∧
              (X.grant a b ca sh s).sh = (if X.nova then sh else X.source.format.pageSh e) := by
            simp only [grant, Pagetable.lookup_eq lawfulS, h, Pagetable.Lookup.ofFind]
            exact ⟨trivial, trivial, trivial⟩
          obtain ⟨-, hp, -, room⟩ := ready.frame lawfulS lawfulD width ca sh s h
          have hl : l < X.source.format.lev := by have := ready.level; rwa [h] at this
          have unit : 2 ^ (X.order a s + pageBits) ∣ 2 ^ (l * bpl + pageBits) := by
            refine Nat.pow_dvd_pow 2 (Nat.add_le_add_right ?_ _)
            rw [order, h]
            exact Nat.min_le_left _ _
          -- the frame of `y` is as far from that of the round as `y` from its first page
          have address : (X.grant a b ca sh s).p + (x - (X.grant a b ca sh s).d) =
              X.source.format.addr l e ||| y &&& offsMask (l * bpl) := by
            apply BitVec.eq_of_toNat_eq
            have fit64 : 2 ^ X.dest.format.addrBits ≤ 2 ^ 64 :=
              Nat.pow_le_pow_right (by decide) (lawfulD.addr_fits.trans (by decide))
            rw [offsMask, toNat_or_low (lawfulS.addr_frame hl.le e) y (lawfulS.bits_lt hl.le),
              (div_mod_part unit aligned (by omega) (by omega)).2, BitVec.toNat_add, BitVec.toNat_sub]
            have := x.isLt
            omega
          simp only [Format.translate, copy, attrs.1, attrs.2.1, attrs.2.2, address, Format.decode]

end Round

/-! ## The loop -/

/-- The calls of a loop from page `a` to page `e`, back to back. -/
def Tiles : Nat → List (Nat × Grant) → Nat → Prop
  | a, [], e => a = e
  | a, c :: rest, e => c.1 = a ∧ Tiles (a + 2 ^ c.2.o) rest e

/-- A tiling visits every page once. -/
theorem tiles_countP {e : Nat} : ∀ {a : Nat} {calls : List (Nat × Grant)}, Tiles a calls e → ∀ i, i < e →
    calls.countP (fun c => decide (c.1 ≤ i ∧ i < c.1 + 2 ^ c.2.o)) = if a ≤ i then 1 else 0
  | a, [], tiles, i, hi => by
      have : a = e := tiles
      rw [if_neg (by omega)]
      rfl
  | a, c :: rest, tiles, i, hi => by
      obtain ⟨rfl, later⟩ := tiles
      have pos := Nat.two_pow_pos c.2.o
      rw [List.countP_cons, tiles_countP later i hi]
      by_cases before : c.1 ≤ i
      · by_cases now : i < c.1 + 2 ^ c.2.o
        · rw [if_neg (by omega), if_pos (by simpa using ⟨before, now⟩), if_pos before]
        · rw [if_pos (by omega), if_neg (by simpa using fun _ => Nat.not_lt.mp now), if_pos before]
      · rw [if_neg (by omega), if_neg (by simpa using fun h => absurd h before), if_neg before]

/-- What the loop relies on and does not change. -/
structure Setting (X : Delegation) (ssb dsb : Nat) : Prop where
  source : X.source.format.Lawful
  dest : X.dest.format.Lawful
  width : X.source.format.addrBits = X.dest.format.addrBits
  handles : ∀ l < X.source.format.lev, X.dest.format.Handles X.lim (min (l * bpl) X.ord)
  aligned : 2 ^ X.ord ∣ ssb
  aligned' : 2 ^ X.ord ∣ dsb
  fits : ssb + 2 ^ X.ord ≤ 2 ^ (X.source.format.lev * bpl)
  fits' : dsb + 2 ^ X.ord ≤ 2 ^ (X.dest.format.lev * bpl)

/-- The state of the two page tables. -/
structure Legal (X : Delegation) (s : State) : Prop where
  wf : X.source.WF s
  wf' : X.dest.WF s
  exact_ : X.source.Exact s
  exact' : X.dest.Exact s
  apart : X.source = X.dest ∨ X.dest.Apart X.source s
  level : ∀ x, (X.source.find s x).1 < X.source.format.lev

/-- What an update by a round does. -/
structure RoundResult (X : Delegation) (a b : Nat) (ca : Cacheability) (sh : Shareability) (s : State)
    (res : Status) (s' : State) : Prop where
  status : res = .success ∨ res = .insMem
  legal : X.Legal s'
  frames : X.dest.Frames s s'
  outside : ∀ x, X.dest.Inside x →
    ¬ (b * 2 ^ pageBits ≤ x.toNat ∧ x.toNat < (b + 2 ^ X.order a s) * 2 ^ pageBits) →
    X.dest.Untouched s s' x
  inside : ∀ x y : Word,
    b * 2 ^ pageBits ≤ x.toNat → x.toNat < (b + 2 ^ X.order a s) * 2 ^ pageBits →
    y.toNat + b * 2 ^ pageBits = x.toNat + a * 2 ^ pageBits →
    (res = .success → X.dest.translation s' x = X.copy ca sh (X.source.translation s y)) ∧
      (X.dest.translation s' x = X.dest.translation s x ∨
        X.dest.translation s' x = X.copy ca sh (X.source.translation s y))
  level : ∀ y, (X.source.find s' y).1 ≤ max (X.source.find s y).1 (X.source.find s (pageAddr a)).1
  rooted : ∀ x, (X.dest.find s x).1 < X.dest.format.lev → (X.dest.find s' x).1 < X.dest.format.lev
  steady : ∀ m, min X.ord X.lim / bpl < m → X.dest.Steady m s s'

theorem round_result {X : Delegation} {ssb dsb : Nat} (setting : X.Setting ssb dsb) {a b : Nat}
    (ca : Cacheability) (sh : Shareability) {s s' : State} (legal : X.Legal s) (ready : X.Ready a b s)
    {res : Status}
    (run : X.dest.update X.lim (X.grant a b ca sh s).d (X.grant a b ca sh s).p
      (X.grant a b ca sh s).o (X.grant a b ca sh s).pm (X.grant a b ca sh s).ca
      (X.grant a b ca sh s).sh s = (res, s')) :
    X.RoundResult a b ca sh s res s' := by
  rw [grant_o X setting.source] at run
  obtain ⟨hd, request⟩ := ready.request setting.source setting.dest setting.width ca sh s
  have handles : X.dest.format.Handles X.lim (X.order a s) := setting.handles _ ready.level
  obtain ⟨status, wf, exact_, frames, effect⟩ :=
    Pagetable.update_spec setting.dest legal.wf' legal.exact' request handles run
  have rounds := fun i (hi : i < bit32 (X.order a s - min (X.order a s) X.lim)) =>
    (Pagetable.rounds_good setting.dest request handles hi (X.grant a b ca sh s).pm
      (X.grant a b ca sh s).ca (X.grant a b ca sh s).sh).1
  have levels := fun x => Pagetable.update_level setting.dest legal.wf' (X.grant a b ca sh s).pm
    (X.grant a b ca sh s).ca (X.grant a b ca sh s).sh handles.2.le rounds x
  rw [run] at levels
  have small : min (X.order a s) X.lim / bpl ≤ (X.source.find s (pageAddr a)).1 := by
    have : X.order a s ≤ (X.source.find s (pageAddr a)).1 * bpl := Nat.min_le_left _ _
    refine Nat.div_le_of_le_mul ?_
    rw [Nat.mul_comm]
    omega
  have range : ∀ x, InRange (X.grant a b ca sh s).d (X.order a s) x ↔
      b * 2 ^ pageBits ≤ x.toNat ∧ x.toNat < (b + 2 ^ X.order a s) * 2 ^ pageBits := by
    intro x
    rw [InRange, hd, Nat.add_mul, ← Nat.pow_add]
  have level : ∀ y, (X.source.find s' y).1 ≤
      max (X.source.find s y).1 (X.source.find s (pageAddr a)).1 := by
    intro y
    rcases legal.apart with same | apart
    · rw [same] at small ⊢
      exact (levels y).trans (max_le_max (le_refl _) small)
    · rw [apart.find legal.wf frames]
      exact Nat.le_max_left _ _
  have lower : ∀ y, (X.source.find s' y).1 < X.source.format.lev := fun y =>
    lt_of_le_of_lt (level y) (max_lt (legal.level y) ready.level)
  refine ⟨status, ?_, frames, fun x hx out => (effect x hx).1 fun h => out ((range x).mp h),
    fun x y low high same => ?_, level, fun x below => lt_of_le_of_lt (levels x) (max_lt below handles.2),
    fun m below => ?_⟩
  · rcases legal.apart with same | apart
    · exact ⟨by rw [same]; exact wf, wf, by rw [same]; exact exact_, exact_, Or.inl same, lower⟩
    · exact ⟨apart.wf legal.wf frames, wf, apart.exact_ legal.wf legal.exact_ frames, exact_,
        Or.inr (apart.keep legal.wf frames), lower⟩
  · have inRange := (range x).mpr ⟨low, high⟩
    have inside : X.dest.Inside x := by
      have := inRange.2
      have := request.v_fits
      rw [Pagetable.Inside]
      omega
    have := (effect x inside).2 inRange
    rwa [ready.target setting.source setting.dest setting.width ca sh s inRange same] at this
  · have order : X.order a s ≤ X.ord := Nat.min_le_right _ _
    have steady := Pagetable.update_steady setting.dest legal.wf' (X.grant a b ca sh s).pm
      (X.grant a b ca sh s).ca (X.grant a b ca sh s).sh handles.2.le rounds
      (lt_of_le_of_lt (Nat.div_le_div_right (min_le_min_right X.lim order)) below)
    rwa [run] at steady

theorem add_le_of_dvd {m a e : Nat} (ha : m ∣ a) (he : m ∣ e) (lt : a < e) : a + m ≤ e := by
  obtain ⟨c, rfl⟩ := ha
  obtain ⟨d, rfl⟩ := he
  rw [← Nat.mul_succ]
  exact Nat.mul_le_mul_left m (Nat.lt_of_mul_lt_mul_left lt)

/-- Aligned ranges are equal or disjoint. -/
theorem aligned_disjoint {m p q : Nat} (hp : m ∣ p) (hq : m ∣ q) :
    p = q ∨ p + m ≤ q ∨ q + m ≤ p := by
  rcases Nat.lt_trichotomy p q with lt | same | gt
  · exact Or.inr (Or.inl (add_le_of_dvd hp hq lt))
  · exact Or.inl same
  · exact Or.inr (Or.inr (add_le_of_dvd hq hp gt))

theorem pred_div {m n : Nat} (pos : 0 < n) (inside : ¬ m ∣ n) : (n - 1) / m = n / m := by
  obtain ⟨k, rfl⟩ := Nat.exists_eq_succ_of_ne_zero pos.ne'
  exact (Nat.succ_div_of_not_dvd inside).symm

/-- Where the loop stands. -/
structure Position (X : Delegation) (ssb dsb a b : Nat) (s : State) : Prop where
  low : ssb ≤ a
  high : a < ssb + 2 ^ X.ord
  offset : b + ssb = a + dsb
  aligned : 2 ^ X.order a s ∣ a

section Loop

variable {X : Delegation} {ssb dsb : Nat} (setting : X.Setting ssb dsb) {a b : Nat} {s s' : State}
include setting

/-- A round ends inside both ranges. -/
theorem Position.room (position : X.Position ssb dsb a b s) :
    2 ^ X.order a s ∣ b ∧ a + 2 ^ X.order a s ≤ ssb + 2 ^ X.ord ∧
      b + 2 ^ X.order a s ≤ dsb + 2 ^ X.ord := by
  have unit : 2 ^ X.order a s ∣ 2 ^ X.ord := Nat.pow_dvd_pow 2 (Nat.min_le_right _ _)
  have hs := unit.trans setting.aligned
  have hd := unit.trans setting.aligned'
  have aligned' : 2 ^ X.order a s ∣ b := by
    refine (Nat.dvd_add_left hs).mp ?_
    rw [position.offset]
    exact Nat.dvd_add position.aligned hd
  have := position.offset
  have := add_le_of_dvd position.aligned (Nat.dvd_add hs unit) position.high
  exact ⟨aligned', by omega, by omega⟩

theorem Position.ready (position : X.Position ssb dsb a b s) (legal : X.Legal s) : X.Ready a b s := by
  obtain ⟨aligned', room, room'⟩ := position.room setting
  exact ⟨legal.level _, position.aligned, aligned', room.trans setting.fits, room'.trans setting.fits'⟩

/-- **The next page is aligned to its own order**: were it in the middle of a leaf,
the page before it would be in that leaf too. -/
theorem next_aligned (position : X.Position ssb dsb a b s) (legal : X.Legal s)
    (level : ∀ y, (X.source.find s' y).1 ≤
      max (X.source.find s y).1 (X.source.find s (pageAddr a)).1)
    (more : a + 2 ^ X.order a s < ssb + 2 ^ X.ord) :
    2 ^ X.order (a + 2 ^ X.order a s) s' ∣ a + 2 ^ X.order a s := by
  have ready := position.ready setting legal
  have pos := Nat.two_pow_pos (X.order a s)
  have source : 2 ^ (X.source.format.lev * bpl) ≤ 2 ^ 51 := by
    have := setting.source.bits_lt (le_refl X.source.format.lev)
    exact Nat.pow_le_pow_right (by decide) (by simp only [pageBits] at this; omega)
  have fits := setting.fits
  have next := toNat_pageAddr (n := a + 2 ^ X.order a s) (by omega)
  have last := toNat_pageAddr (n := a + 2 ^ X.order a s - 1) (by omega)
  by_contra unaligned
  -- both pages are in one slot of the level where the search for the next page ends
  have whole : ¬ 2 ^ ((X.source.find s' (pageAddr (a + 2 ^ X.order a s))).1 * bpl) ∣
      a + 2 ^ X.order a s := fun divides =>
    unaligned ((Nat.pow_dvd_pow 2 (Nat.min_le_left _ _)).trans divides)
  have same : X.source.find s' (pageAddr (a + 2 ^ X.order a s - 1)) =
      X.source.find s' (pageAddr (a + 2 ^ X.order a s)) := by
    refine Pagetable.find_same ((Pagetable.sameSlot_iff (Tree.find_level_le _ _ _) ?_ ?_).mpr ?_)
    · rw [Pagetable.Inside, last, Nat.pow_add]
      exact Nat.mul_lt_mul_of_pos_right (by omega) (Nat.two_pow_pos _)
    · rw [Pagetable.Inside, next, Nat.pow_add]
      exact Nat.mul_lt_mul_of_pos_right (by omega) (Nat.two_pow_pos _)
    · rw [Pagetable.block, Pagetable.block, next, last, Nat.pow_add,
        Nat.mul_div_mul_right _ _ (Nat.two_pow_pos _), Nat.mul_div_mul_right _ _ (Nat.two_pow_pos _)]
      exact pred_div (by omega) whole
  -- and the page before was visited at a level that is not higher
  have before : X.source.find s (pageAddr (a + 2 ^ X.order a s - 1)) = X.source.find s (pageAddr a) := by
    have low : a ≤ a + 2 ^ X.order a s - 1 := by omega
    have high : a + 2 ^ X.order a s - 1 < a + 2 ^ X.order a s := by omega
    refine ready.find_same setting.source s setting.dest ?_ ?_
    · rw [last]
      exact Nat.mul_le_mul_right _ low
    · rw [last, Nat.pow_add, ← Nat.add_mul]
      exact Nat.mul_lt_mul_of_pos_right high (Nat.two_pow_pos _)
  have lower := level (pageAddr (a + 2 ^ X.order a s - 1))
  rw [same, before, max_self] at lower
  refine unaligned (Nat.dvd_add ?_ ?_)
  · refine (Nat.pow_dvd_pow 2 ?_).trans position.aligned
    exact min_le_min (Nat.mul_le_mul_right _ lower) (le_refl _)
  · exact Nat.pow_dvd_pow 2 (min_le_min (Nat.mul_le_mul_right _ lower) (le_refl _))

/-- The pages that are still to be visited are left alone. -/
theorem source_untouched (position : X.Position ssb dsb a b s) (legal : X.Legal s) {res : Status}
    {ca : Cacheability} {sh : Shareability} (round : X.RoundResult a b ca sh s res s') {y : Word}
    (low : (a + 2 ^ X.order a s) * 2 ^ pageBits ≤ y.toNat)
    (high : y.toNat < (ssb + 2 ^ X.ord) * 2 ^ pageBits) : X.source.Untouched s s' y := by
  obtain ⟨aligned', room, room'⟩ := position.room setting
  rcases legal.apart with same | apart
  · have fits := setting.fits
    rw [same] at fits ⊢
    refine round.outside y ?_ ?_
    · rw [Pagetable.Inside, Nat.pow_add]
      exact lt_of_lt_of_le high (Nat.mul_le_mul_right _ fits)
    · rintro ⟨low', high'⟩
      have := position.offset
      have := position.low
      have below := Nat.lt_of_mul_lt_mul_right (lt_of_le_of_lt low' high)
      have above := Nat.lt_of_mul_lt_mul_right (lt_of_le_of_lt low high')
      rcases aligned_disjoint setting.aligned setting.aligned' with e | left | right
      · omega
      · omega
      · omega
  · unfold Pagetable.Untouched Pagetable.translation
    rw [apart.find legal.wf round.frames]
    exact ⟨rfl, le_refl _⟩

end Loop

/-- What the loop does from the pages `a` and `b` on. -/
structure LoopResult (X : Delegation) (ssb dsb a b : Nat) (ca : Cacheability) (sh : Shareability)
    (s : State) (res : Status) (s' : State) (calls : List (Nat × Grant)) : Prop where
  status : res = .success ∨ res = .insMem
  legal : X.Legal s'
  frames : X.dest.Frames s s'
  outside : ∀ x, X.dest.Inside x →
    ¬ (b * 2 ^ pageBits ≤ x.toNat ∧ x.toNat < (dsb + 2 ^ X.ord) * 2 ^ pageBits) →
    X.dest.Untouched s s' x
  inside : ∀ x y : Word,
    b * 2 ^ pageBits ≤ x.toNat → x.toNat < (dsb + 2 ^ X.ord) * 2 ^ pageBits →
    y.toNat + b * 2 ^ pageBits = x.toNat + a * 2 ^ pageBits →
    (res = .success → X.dest.translation s' x = X.copy ca sh (X.source.translation s y)) ∧
      (X.dest.translation s' x = X.dest.translation s x ∨
        X.dest.translation s' x = X.copy ca sh (X.source.translation s y))
  asserts : ∀ c ∈ calls, c.2.d &&& offsMask c.2.o = 0#64 ∧ c.2.p &&& offsMask c.2.o = 0#64
  tiles : res = .success → Tiles a calls (ssb + 2 ^ X.ord)
  rooted : ∀ x, (X.dest.find s x).1 < X.dest.format.lev → (X.dest.find s' x).1 < X.dest.format.lev
  steady : ∀ m, min X.ord X.lim / bpl < m → X.dest.Steady m s s'

/-- The attributes that a round passes on make no difference. -/
theorem copy_grant (X : Delegation) (a b : Nat) (ca : Cacheability) (sh : Shareability) (s : State) :
    X.copy (X.grant a b ca sh s).ca (X.grant a b ca sh s).sh = X.copy ca sh := by
  funext t
  cases h : X.nova <;> simp [copy, grant, h]

/-- An aligned address has no offset. -/
theorem and_offsMask_zero {o : Nat} {w : Word} (ho : o + pageBits < 64)
    (aligned : w.toNat % 2 ^ (o + pageBits) = 0) : w &&& offsMask o = 0#64 := by
  apply BitVec.eq_of_toNat_eq
  rw [offsMask, toNat_and_lowMask w ho, aligned]
  rfl

section Loop

variable {X : Delegation} {ssb dsb : Nat} (setting : X.Setting ssb dsb)
include setting

/-- The asserts at the start of `update`. -/
theorem round_asserts {a b : Nat} (ca : Cacheability) (sh : Shareability) {s : State}
    (ready : X.Ready a b s) :
    (X.grant a b ca sh s).d &&& offsMask (X.grant a b ca sh s).o = 0#64 ∧
      (X.grant a b ca sh s).p &&& offsMask (X.grant a b ca sh s).o = 0#64 := by
  rw [grant_o X setting.source]
  obtain ⟨bits, -⟩ := ready.bounds setting.source s setting.dest
  obtain ⟨-, request⟩ := ready.request setting.source setting.dest setting.width ca sh s
  exact ⟨and_offsMask_zero bits request.v_aligned, and_offsMask_zero bits request.p_aligned⟩

/-- A round that failed ends the loop. -/
theorem RoundResult.stop {a b : Nat} {ca : Cacheability} {sh : Shareability} {s s' : State}
    {res : Status} (round : X.RoundResult a b ca sh s res s') (failed : res ≠ .success)
    (position : X.Position ssb dsb a b s) (ready : X.Ready a b s) :
    X.LoopResult ssb dsb a b ca sh s res s' [(a, X.grant a b ca sh s)] := by
  obtain ⟨-, -, room'⟩ := position.room setting
  have cut : (b + 2 ^ X.order a s) * 2 ^ pageBits ≤ (dsb + 2 ^ X.ord) * 2 ^ pageBits :=
    Nat.mul_le_mul_right _ room'
  refine ⟨round.status, round.legal, round.frames, fun x hx out => round.outside x hx ?_,
    fun x y low high same => ⟨fun h => absurd h failed, ?_⟩, ?_, fun h => absurd h failed, round.rooted,
    round.steady⟩
  · rintro ⟨low, high⟩
    exact out ⟨low, by omega⟩
  · by_cases now : x.toNat < (b + 2 ^ X.order a s) * 2 ^ pageBits
    · exact (round.inside x y low now same).2
    · refine Or.inl (round.outside x ?_ fun h => now h.2).1
      rw [Pagetable.Inside, Nat.pow_add]
      exact lt_of_lt_of_le high (Nat.mul_le_mul_right _ setting.fits')
  · intro c member
    rw [List.mem_singleton.mp member]
    exact round_asserts setting ca sh ready

/-- A round that succeeded, and the rest of the loop. -/
theorem RoundResult.cons {a b : Nat} {ca : Cacheability} {sh : Shareability} {s s1 s' : State}
    {res : Status} {calls : List (Nat × Grant)} (round : X.RoundResult a b ca sh s .success s1)
    (position : X.Position ssb dsb a b s) (legal : X.Legal s)
    (rest : X.LoopResult ssb dsb (a + 2 ^ X.order a s) (b + 2 ^ X.order a s) ca sh s1 res s' calls) :
    X.LoopResult ssb dsb a b ca sh s res s' ((a, X.grant a b ca sh s) :: calls) := by
  have ready := position.ready setting legal
  obtain ⟨-, -, room'⟩ := position.room setting
  have cut : (b + 2 ^ X.order a s) * 2 ^ pageBits ≤ (dsb + 2 ^ X.ord) * 2 ^ pageBits :=
    Nat.mul_le_mul_right _ room'
  have ahead : b * 2 ^ pageBits ≤ (b + 2 ^ X.order a s) * 2 ^ pageBits :=
    Nat.mul_le_mul_right _ (Nat.le_add_right _ _)
  refine ⟨rest.status, rest.legal, round.frames.trans rest.frames, fun x hx out => ?_,
    fun x y low high same => ?_, ?_, fun success => ⟨rfl, ?_⟩,
    fun x below => rest.rooted x (round.rooted x below),
    fun m below => (round.steady m below).trans (rest.steady m below)⟩
  · refine (round.outside x hx ?_).trans (rest.outside x hx ?_)
    · rintro ⟨low, high⟩
      exact out ⟨low, by omega⟩
    · rintro ⟨low, high⟩
      exact out ⟨by omega, high⟩
  · have hx : X.dest.Inside x := by
      rw [Pagetable.Inside, Nat.pow_add]
      exact lt_of_lt_of_le high (Nat.mul_le_mul_right _ setting.fits')
    by_cases now : x.toNat < (b + 2 ^ X.order a s) * 2 ^ pageBits
    · -- written by this round, and not again
      have value := (round.inside x y low now same).1 rfl
      have later := (rest.outside x hx fun h => by omega).1
      rw [later, value]
      exact ⟨fun _ => rfl, Or.inr rfl⟩
    · have untouched := (round.outside x hx fun h => now h.2).1
      have position' := position.offset
      have hy : X.source.Untouched s s1 y := by
        refine source_untouched setting position legal round ?_ ?_
        · rw [Nat.add_mul] at now ⊢
          omega
        · have := congrArg (· * 2 ^ pageBits) position'
          simp only [Nat.add_mul] at this high ⊢
          omega
      obtain ⟨success, either⟩ := rest.inside x y (by omega) high (by
        simp only [Nat.add_mul]
        omega)
      rw [hy.1] at success either
      rw [untouched] at either
      exact ⟨success, either⟩
  · intro c member
    rcases List.mem_cons.mp member with rfl | later
    · exact round_asserts setting ca sh ready
    · exact rest.asserts c later
  · rw [show (a, X.grant a b ca sh s).2.o = X.order a s from grant_o X setting.source ca sh s]
    exact rest.tiles success

/-- **The loop**, by induction on the number of pages left. -/
theorem loop_result : ∀ (a b : Nat) (ca : Cacheability) (sh : Shareability) (s : State), ssb ≤ a → a ≤ ssb + 2 ^ X.ord → b + ssb = a + dsb →
    (a < ssb + 2 ^ X.ord → 2 ^ X.order a s ∣ a) → X.Legal s →
    X.LoopResult ssb dsb a b ca sh s (X.loop (ssb + 2 ^ X.ord) a b ca sh s).1
      (X.loop (ssb + 2 ^ X.ord) a b ca sh s).2.1 (X.loop (ssb + 2 ^ X.ord) a b ca sh s).2.2
  | a, b, ca, sh, s, low, high, offset, aligned, legal => by
      rw [loop]
      by_cases more : a < ssb + 2 ^ X.ord
      · rw [if_pos more]
        have position : X.Position ssb dsb a b s := ⟨low, more, offset, aligned more⟩
        have ready := position.ready setting legal
        obtain ⟨-, room, -⟩ := position.room setting
        have pos := Nat.two_pow_pos (X.order a s)
        dsimp only
        split
        · rename_i s1 run
          have round := round_result setting ca sh legal ready run
          rw [grant_o X setting.source ca sh s]
          have rest := loop_result (a + 2 ^ X.order a s) (b + 2 ^ X.order a s)
            (X.grant a b ca sh s).ca (X.grant a b ca sh s).sh s1 (by omega) room (by omega)
            (next_aligned setting position legal round.level) round.legal
          refine round.cons setting position legal ?_
          obtain ⟨status, legal', frames, outside, inside, asserts, tiles, rooted, steady⟩ := rest
          rw [copy_grant] at inside
          exact ⟨status, legal', frames, outside, inside, asserts, tiles, rooted, steady⟩
        · rename_i res s1 failed run
          have round := round_result setting ca sh legal ready run
          exact round.stop setting (fun success => failed success) position ready
      · rw [if_neg more]
        obtain rfl : a = ssb + 2 ^ X.ord := by omega
        have same : b = dsb + 2 ^ X.ord := by omega
        subst same
        refine ⟨Or.inl rfl, legal, .refl s, fun _ _ _ => ⟨rfl, le_refl _⟩,
          fun x y low' high' _ => absurd high' (Nat.not_lt.mpr low'), ?_, fun _ => rfl, fun _ => id,
          fun m _ => .refl m s⟩
        exact fun c member => absurd member List.not_mem_nil
  termination_by a => ssb + 2 ^ X.ord - a
  decreasing_by
    have := Nat.two_pow_pos (X.order a s)
    omega

end Loop

/-! ## The contract -/

/-- The lookup of a destination page, given that of its source page: the same frame
with the granted permissions, encoded in the destination format, or a hole if
nothing is left to encode. -/
def Copied (X : Delegation) (ca : Cacheability) (sh : Shareability) (src dst : Pagetable.Lookup) : Prop :=
  let pm := src.pm.granted X.pmm
  let ca := if X.nova then ca else src.ca
  let sh := if X.nova then sh else src.sh
  let a := X.dest.format.pageAttr 0 pm ca sh
  if a = 0#64 then dst.pm = .none ∧ dst.p = 0#64
  else dst.pm = X.dest.format.pagePm a ∧ dst.p = src.p ∧ dst.ca = X.dest.format.pageCa 0 a ∧
    dst.sh = X.dest.format.pageSh a

/-- The source address of a destination address. -/
def sourceOf (ssb dsb : Nat) (x : Word) : Word := x - pageAddr dsb + pageAddr ssb

/-- `delegate` as it should be. -/
structure Faithful (X : Delegation) (A : Arch) (kind : MemKind) (ssb dsb : Nat) (ca : Cacheability)
    (sh : Shareability) (s : State) (res : Status) (s' : State) (calls : List (Nat × Grant)) :
    Prop where
  status : res = .success ∨ res = .insMem ∨ res = .badPar
  badPar : res = .badPar ↔ A.num .hst < ssb + 2 ^ X.ord ∨ A.num kind < dsb + 2 ^ X.ord
  unchanged : res = .badPar → s' = s
  /-- The two asserts of `update` hold in every call. -/
  asserts : ∀ c ∈ calls, c.2.d &&& offsMask c.2.o = 0#64 ∧ c.2.p &&& offsMask c.2.o = 0#64
  /-- Every source page is visited once. -/
  once : res = .success → ∀ i, ssb ≤ i → i < ssb + 2 ^ X.ord →
    calls.countP (fun c => decide (c.1 ≤ i ∧ i < c.1 + 2 ^ c.2.o)) = 1
  copied : res = .success → ∀ x, InRange (pageAddr dsb) X.ord x → ∀ ca' sh',
    X.Copied ca sh (X.source.lookup (sourceOf ssb dsb x) ca' sh' s) (X.dest.lookup x ca' sh' s')
  /-- A destination of the source's format inherits the memory attributes as they are. -/
  inherits : res = .success → X.nova = false → X.dest.format = X.source.format →
    ∀ x, InRange (pageAddr dsb) X.ord x → ∀ ca' sh',
      (X.dest.lookup x ca' sh' s').pm ≠ .none →
      (X.dest.lookup x ca' sh' s').ca = (X.source.lookup (sourceOf ssb dsb x) ca' sh' s).ca ∧
        (X.dest.lookup x ca' sh' s').sh = (X.source.lookup (sourceOf ssb dsb x) ca' sh' s).sh
  partly : res = .insMem → ∀ x, InRange (pageAddr dsb) X.ord x → ∀ ca' sh',
    (X.dest.lookup x ca' sh' s').Agrees (X.dest.lookup x ca' sh' s) ∨
      X.Copied ca sh (X.source.lookup (sourceOf ssb dsb x) ca' sh' s) (X.dest.lookup x ca' sh' s')
  outside : res ≠ .badPar → ∀ x, X.dest.Inside x → ¬ InRange (pageAddr dsb) X.ord x → ∀ ca' sh',
    (X.dest.lookup x ca' sh' s').Agrees (X.dest.lookup x ca' sh' s)

/-- The copy of a translation, in terms of `lookup`. -/
theorem copied_of_translation (X : Delegation) (lawfulS : X.source.format.Lawful)
    (lawfulD : X.dest.format.Lawful) {ca : Cacheability} {sh : Shareability} {s s' : State} {x y : Word}
    (same : X.dest.translation s' x = X.copy ca sh (X.source.translation s y)) (ca' : Cacheability)
    (sh' : Shareability) :
    X.Copied ca sh (X.source.lookup y ca' sh' s) (X.dest.lookup x ca' sh' s') := by
  rw [Pagetable.lookup_translation lawfulS, Pagetable.lookup_translation lawfulD, same]
  unfold Copied
  cases X.source.translation s y with
  | none =>
      simp only [Pagetable.Lookup.ofTranslation, Permissions.granted_none]
      rw [if_pos (lawfulD.attr_none _ _ _)]
      exact ⟨rfl, rfl⟩
  | some t =>
      obtain ⟨q, pm, ca0, sh0⟩ := t
      rw [copy]
      by_cases zero : X.dest.format.pageAttr 0 (pm.granted X.pmm) (if X.nova then ca else ca0)
          (if X.nova then sh else sh0) = 0#64
      · simp only [zero, if_true, Pagetable.Lookup.ofTranslation]
        exact ⟨trivial, trivial⟩
      · simp only [zero, if_false, Pagetable.Lookup.ofTranslation]
        exact ⟨rfl, trivial, rfl, rfl⟩

theorem level_of_root {T : Pagetable} {s : State} (pos : 0 < T.format.lev) (root : T.RootTable s)
    (x : Word) : (T.find s x).1 < T.format.lev := by
  obtain ⟨page, table⟩ := root
  obtain ⟨k, hk⟩ := Nat.exists_eq_succ_of_ne_zero pos.ne'
  rw [hk] at table ⊢
  unfold Pagetable.find Pagetable.tree
  rw [hk, treeOf_table _ table, Tree.find]
  exact Nat.lt_succ_of_le (Tree.find_level_le _ _ _)

/-- Every order that a source leaf can have is one that every destination handles. -/
theorem handles_leaf (A : Arch) (kind : MemKind) (args : List Nat) (ord : Nat) {l : Nat}
    (hl : l < (A.fmt .hst).format.lev) :
    (A.fmt kind).format.Handles ((A.fmt kind).format.limit args) (min (l * bpl) ord) := by
  obtain ⟨k, hk, limit⟩ := limit_cases (A.fmt kind).format args
  rw [Fmt.max_eq] at hk
  rw [limit]
  have levels : (A.fmt kind).format.lev = (A.fmt .hst).format.lev ∧
      ((A.fmt .hst).format.lev = 4 ∨ (A.fmt .hst).format.lev = 3) := by
    cases A <;> cases kind <;> simp [Arch.fmt, Fmt.format, hptX86, ept, dpt, npt]
  simp only [Format.Handles, bpl, pageBits]
  omega

theorem num_le (A : Arch) (kind : MemKind) :
    A.num kind ≤ 2 ^ ((A.fmt kind).format.lev * bpl) ∧ A.num kind ≤ 2 ^ 51 := by
  cases A <;> cases kind <;>
    simp [Arch.num, Arch.fmt, Fmt.format, hptX86, ept, dpt, npt, bpl]

/-- What the checks of `delegate` and its callers ensure. -/
theorem setting_of_fits (A : Arch) (kind : MemKind) {X : Delegation}
    (formatS : X.source.format = (A.fmt .hst).format) (formatD : X.dest.format = (A.fmt kind).format)
    (args : List Nat) (lim : X.lim = X.dest.format.limit args) {ssb dsb : Nat}
    (aligned : 2 ^ X.ord ∣ ssb) (aligned' : 2 ^ X.ord ∣ dsb) (fits : ssb + 2 ^ X.ord ≤ A.num .hst)
    (fits' : dsb + 2 ^ X.ord ≤ A.num kind) : X.Setting ssb dsb := by
  have numS := (num_le A .hst).1
  have numD := (num_le A kind).1
  rw [← formatS] at numS
  rw [← formatD] at numD
  refine ⟨formatS ▸ (A.fmt .hst).lawful, formatD ▸ (A.fmt kind).lawful, ?_, fun l hl => ?_, aligned,
    aligned', by omega, by omega⟩
  · rw [formatS, formatD]
    cases A <;> cases kind <;> rfl
  · rw [lim, formatD]
    exact handles_leaf A kind args X.ord (formatS ▸ hl)

/-- The loop, started where `delegate` starts it. -/
theorem delegate_result {X : Delegation} {ssb dsb : Nat} (setting : X.Setting ssb dsb)
    (ca : Cacheability) (sh : Shareability) {s : State} (legal : X.Legal s) :
    X.LoopResult ssb dsb ssb dsb ca sh s (X.loop (ssb + 2 ^ X.ord) ssb dsb ca sh s).1
      (X.loop (ssb + 2 ^ X.ord) ssb dsb ca sh s).2.1 (X.loop (ssb + 2 ^ X.ord) ssb dsb ca sh s).2.2 := by
  refine loop_result setting ssb dsb ca sh s (le_refl _) (Nat.le_add_right _ _) (Nat.add_comm _ _)
    (fun _ => ?_) legal
  exact (Nat.pow_dvd_pow 2 (Nat.min_le_right _ _)).trans setting.aligned

theorem toNat_sourceOf {ssb dsb ord : Nat} {x : Word} (hs : ssb + 2 ^ ord ≤ 2 ^ 51)
    (hd : dsb + 2 ^ ord ≤ 2 ^ 51) (inRange : InRange (pageAddr dsb) ord x) :
    (sourceOf ssb dsb x).toNat + dsb * 2 ^ pageBits = x.toNat + ssb * 2 ^ pageBits := by
  obtain ⟨low, high⟩ := inRange
  have pos := Nat.two_pow_pos ord
  have range : 2 ^ (ord + pageBits) = 2 ^ ord * 2 ^ pageBits := Nat.pow_add _ _ _
  have ns := toNat_pageAddr (n := ssb) (by omega)
  have nd := toNat_pageAddr (n := dsb) (by omega)
  rw [sourceOf, BitVec.toNat_add, BitVec.toNat_sub, ns, nd]
  rw [nd, range] at high
  rw [nd] at low
  simp only [pageBits] at low high ⊢
  omega

/-- The memory attributes of a leaf of the source survive in its own format. -/
theorem copied_inherits {X : Delegation} (fmt : Fmt) (format : X.source.format = fmt.format)
    (same : X.dest.format = X.source.format) {s : State} (exact_ : X.source.Exact s)
    (inherit_ : X.nova = false) {ca ca' : Cacheability} {sh sh' : Shareability} {y : Word}
    {dst : Pagetable.Lookup} (copied : X.Copied ca sh (X.source.lookup y ca' sh' s) dst)
    (mapped : dst.pm ≠ .none) :
    dst.ca = (X.source.lookup y ca' sh' s).ca ∧ dst.sh = (X.source.lookup y ca' sh' s).sh := by
  have lawful : X.source.format.Lawful := format ▸ fmt.lawful
  rw [Pagetable.lookup_eq lawful] at copied ⊢
  unfold Copied at copied
  simp only [inherit_, Bool.false_eq_true, if_false] at copied
  by_cases zero : X.dest.format.pageAttr 0
      ((Pagetable.Lookup.ofFind X.source.format y ca' sh' (X.source.find s y)).pm.granted X.pmm)
      (Pagetable.Lookup.ofFind X.source.format y ca' sh' (X.source.find s y)).ca
      (Pagetable.Lookup.ofFind X.source.format y ca' sh' (X.source.find s y)).sh = 0#64
  · rw [if_pos zero] at copied
    exact absurd copied.1 mapped
  · rw [if_neg zero] at copied
    obtain ⟨-, -, hca, hsh⟩ := copied
    rw [hca, hsh]
    cases found : X.source.find s y with
    | mk l leaf =>
        rw [found] at zero
        cases leaf with
        | none =>
            simp only [Pagetable.Lookup.ofFind, Permissions.granted_none] at zero
            exact absurd (by rw [same]; exact lawful.attr_none _ _ _) zero
        | some e =>
            have stable := Tree.find_allLeaves _ _ _ exact_ found
            rw [Format.StableLeaf, format] at stable
            simp only [Pagetable.Lookup.ofFind, same, format] at zero ⊢
            exact fmt.memattr_kept stable zero

/-- **Delegation copies translations faithfully**, from a host space to a space of any
kind, itself included. -/
theorem delegate_faithful (A : Arch) (kind : MemKind) (X : Delegation)
    (formatS : X.source.format = (A.fmt .hst).format) (formatD : X.dest.format = (A.fmt kind).format)
    (args : List Nat) (lim : X.lim = X.dest.format.limit args) (s : State) (wf : X.source.WF s)
    (wf' : X.dest.WF s) (exact_ : X.source.Exact s) (exact' : X.dest.Exact s)
    (apart : X.source = X.dest ∨ X.dest.Apart X.source s) (root : X.source.RootTable s)
    (ssb dsb : Nat) (aligned : 2 ^ X.ord ∣ ssb) (aligned' : 2 ^ X.ord ∣ dsb) (ca : Cacheability)
    (sh : Shareability) (res : Status) (s' : State) (calls : List (Nat × Grant))
    (run : X.delegate A kind ssb dsb ca sh s = (res, s', calls)) :
    X.Faithful A kind ssb dsb ca sh s res s' calls := by
  have lawfulS : X.source.format.Lawful := formatS ▸ (A.fmt .hst).lawful
  have lawfulD : X.dest.format.Lawful := formatD ▸ (A.fmt kind).lawful
  unfold delegate at run
  by_cases bad : ssb + 2 ^ X.ord > A.num .hst ∨ dsb + 2 ^ X.ord > A.num kind
  · rw [if_pos bad] at run
    obtain ⟨rfl, rfl, rfl⟩ : Status.badPar = res ∧ s = s' ∧ [] = calls := by
      simpa using run
    exact ⟨Or.inr (Or.inr rfl), ⟨fun _ => bad, fun _ => rfl⟩, fun _ => rfl,
      fun c member => absurd member List.not_mem_nil, fun h => (by cases h), fun h => (by cases h),
      fun h => (by cases h), fun h => (by cases h), fun h => absurd rfl h⟩
  · rw [if_neg bad] at run
    obtain ⟨-, smallS⟩ := num_le A .hst
    obtain ⟨-, smallD⟩ := num_le A kind
    obtain ⟨hs, hd⟩ := not_or.mp bad
    have setting := setting_of_fits A kind formatS formatD args lim aligned aligned' (by omega) (by omega)
    have legal : X.Legal s :=
      ⟨wf, wf', exact_, exact', apart, level_of_root lawfulS.lev_pos root⟩
    have result := delegate_result setting ca sh legal
    obtain ⟨rfl, rfl, rfl⟩ : (X.loop (ssb + 2 ^ X.ord) ssb dsb ca sh s).1 = res ∧
        (X.loop (ssb + 2 ^ X.ord) ssb dsb ca sh s).2.1.freeWait = s' ∧
        (X.loop (ssb + 2 ^ X.ord) ssb dsb ca sh s).2.2 = calls := by
      simpa using run
    -- reclaiming pages changes no translation
    have final : ∀ x, X.dest.translation (X.loop (ssb + 2 ^ X.ord) ssb dsb ca sh s).2.1.freeWait x =
        X.dest.translation (X.loop (ssb + 2 ^ X.ord) ssb dsb ca sh s).2.1 x := fun _ => rfl
    have range : ∀ x, InRange (pageAddr dsb) X.ord x ↔ dsb * 2 ^ pageBits ≤ x.toNat ∧
        x.toNat < (dsb + 2 ^ X.ord) * 2 ^ pageBits := by
      intro x
      have pos := Nat.two_pow_pos X.ord
      rw [InRange, toNat_pageAddr (by omega), Nat.add_mul, ← Nat.pow_add]
    have inside := fun x (inRange : InRange (pageAddr dsb) X.ord x) =>
      result.inside x (sourceOf ssb dsb x) ((range x).mp inRange).1 ((range x).mp inRange).2
        (toNat_sourceOf (by omega) (by omega) inRange)
    have copied : (X.loop (ssb + 2 ^ X.ord) ssb dsb ca sh s).1 = .success →
        ∀ x, InRange (pageAddr dsb) X.ord x → ∀ ca' sh',
          X.Copied ca sh (X.source.lookup (sourceOf ssb dsb x) ca' sh' s)
            (X.dest.lookup x ca' sh' (X.loop (ssb + 2 ^ X.ord) ssb dsb ca sh s).2.1.freeWait) := by
      intro success x inRange ca' sh'
      exact copied_of_translation X lawfulS lawfulD ((inside x inRange).1 success) ca' sh'
    have fine : (X.loop (ssb + 2 ^ X.ord) ssb dsb ca sh s).1 ≠ .badPar := by
      rcases result.status with e | e <;> rw [e] <;> exact fun h => by cases h
    refine ⟨result.status.imp_right Or.inl, ⟨fun h => absurd h fine, fun h => absurd h bad⟩,
      fun h => absurd h fine, result.asserts, fun success i low high => ?_, copied,
      fun success inherit_ same x inRange ca' sh' mapped => ?_, fun _ x inRange ca' sh' => ?_,
      fun _ x hx out ca' sh' => ?_⟩
    · rw [tiles_countP (result.tiles success) i high, if_pos low]
    · exact copied_inherits (A.fmt .hst) formatS same exact_ inherit_
        (copied success x inRange ca' sh') mapped
    · rcases (inside x inRange).2 with old | new
      · left
        rw [Pagetable.lookup_translation lawfulD, Pagetable.lookup_translation lawfulD, final, old]
        exact Pagetable.Lookup.agrees_of_translation _ _ _ _ _
      · exact Or.inr (copied_of_translation X lawfulS lawfulD new ca' sh')
    · rw [Pagetable.lookup_translation lawfulD, Pagetable.lookup_translation lawfulD, final,
        (result.outside x hx fun h => out ((range x).mpr h)).1]
      exact Pagetable.Lookup.agrees_of_translation _ _ _ _ _

/-- A host space with one page, which is delegated with the hole after it to the two pages next to them. -/
def neighbour : Delegation where
  source := bareTable hptX86
  dest := bareTable hptX86
  lim := 27
  nova := false
  ord := 1
  pmm := { r := true }
  junk _ := (0#3, 0#2)

def neighbourState : State :=
  ((bareTable hptX86).update 27 0#64 0x7000#64 0 { r := true, u := true } 0#3 0#2
    (Pagetable.seedState [0x2000#64, 0x3000#64, 0x4000#64, 0x5000#64])).2

/-- The first step covers one of the two pages. -/
theorem delegate_faithful_neighbour : neighbour.Faithful (.x86 false) .hst 0 2 0#3 0#2 neighbourState
    (neighbour.delegate (.x86 false) .hst 0 2 0#3 0#2 neighbourState).1
    (neighbour.delegate (.x86 false) .hst 0 2 0#3 0#2 neighbourState).2.1
    (neighbour.delegate (.x86 false) .hst 0 2 0#3 0#2 neighbourState).2.2 ∧
      (neighbour.grant 0 2 0#3 0#2 neighbourState).o = 0 := by
  have exact_ : (bareTable hptX86).Exact
      (Pagetable.seedState [0x2000#64, 0x3000#64, 0x4000#64, 0x5000#64]) := (bare_wf hptX86_lawful).2
  have request : (bareTable hptX86).Request 0#64 0x7000#64 0 :=
    ⟨by decide, by decide, by decide, by decide⟩
  have run : (bareTable hptX86).update 27 0#64 0x7000#64 0 { r := true, u := true } 0#3 0#2
      (Pagetable.seedState [0x2000#64, 0x3000#64, 0x4000#64, 0x5000#64]) = (_, neighbourState) := rfl
  obtain ⟨-, wf, exact', -, -⟩ := Pagetable.update_spec (T := bareTable hptX86) hptX86_lawful
    (Pagetable.seed_wf hptX86_lawful [0x2000#64, 0x3000#64, 0x4000#64, 0x5000#64]) exact_ request
    (by decide) run
  refine ⟨?_, by decide +kernel⟩
  exact delegate_faithful (.x86 false) .hst neighbour rfl rfl [] rfl neighbourState wf wf exact' exact'
    (Or.inl rfl) ⟨0x2000#64, rfl⟩ 0 2 (by decide) (by decide) 0#3 0#2 _ _ _ rfl

end Delegation

end Nova.Kernel
