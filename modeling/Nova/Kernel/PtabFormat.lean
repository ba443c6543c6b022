/-
# Nova.Kernel.PtabFormat — the page-table entry formats

`Format` is the template argument `T` of `Pagetable<T,I,O,L,M,C>` together with
its levels: how an entry refers to a table, how it refers to a leaf page, and how
page permissions, cacheability and shareability are packed into it and read back
(`inc/ptab.hpp`, `inc/x86_64/ptab_{hpt,ept,dpt}.hpp`,
`inc/aarch64/ptab_{hpt,npt}.hpp`, `inc/{x86_64,aarch64}/{paging,memattr}.hpp`).

`Lawful` collects what the tree algorithms rely on, and `Fmt.lawful` proves it of
every format of the repository.  The one law with an argument in it is
`Lawful.stable`: what is read back from an encoded leaf can be encoded again at
any level and reads back the same, which is what splintering a large page needs.
-/
import Nova.Theory.Words

namespace Nova.Kernel

open Nova.Theory.Words

set_option autoImplicit false

/-- Index bits per level: `bit_scan_reverse (PAGE_SIZE / sizeof (OAddr))`. -/
def bpl : Nat := 9

/-- `PAGE_BITS` -/
def pageBits : Nat := 12

/-- `BIT (B)`: a 32-bit shift.  A count of 32 and more is undefined in C++; the
32-bit shift instructions of both architectures take it modulo 32. -/
def bit32 (b : Nat) : Nat := 2 ^ (b % 32)

/-! ## Permissions and memory attributes -/

/-- `Paging::Permissions`, one field per enumerator. -/
structure Permissions where
  r : Bool := false
  w : Bool := false
  xu : Bool := false
  xs : Bool := false
  u : Bool := false
  k : Bool := false
  g : Bool := false
  ss : Bool := false
  deriving DecidableEq, Repr

namespace Permissions

def none : Permissions := {}

/-- `pm & Paging::API` -/
def api (pm : Permissions) : Bool := pm.xs || pm.xu || pm.w || pm.r

/-- `a & b` -/
def land (a b : Permissions) : Permissions :=
  { r := a.r && b.r, w := a.w && b.w, xu := a.xu && b.xu, xs := a.xs && b.xs,
    u := a.u && b.u, k := a.k && b.k, g := a.g && b.g, ss := a.ss && b.ss }

end Permissions

/-- `Memattr::Cacheability`; hypercalls pass all eight values. -/
abbrev Cacheability := BitVec 3

/-- `Memattr::Shareability` -/
abbrev Shareability := BitVec 2

namespace Memattr

/-- x86 `pat`: the memory type of each cacheability (WB 6, WT 4, WC 1, UC 0, WP 5). -/
def pat : Word := 6#64 ||| 4#64 <<< 8 ||| 1#64 <<< 16 ||| 0#64 <<< 24 ||| 5#64 <<< 32

/-- x86 `rev`: the cacheability of each memory type. -/
def rev : Word := 0#64 <<< 48 ||| 1#64 <<< 32 ||| 2#64 <<< 8 ||| 3#64 ||| 4#64 <<< 40

def caToEpt (ca : Cacheability) : BitVec 3 := (pat >>> (8 * ca.toNat)).setWidth 3

def eptToCa (e : BitVec 3) : Cacheability := (rev >>> (8 * e.toNat)).setWidth 3

/-- aarch64 `mair`: DEV 0x00, DEV_E 0x04, DEV_RE 0x08, DEV_GRE 0x0c, NC 0x44, WT 0xbb, WB 0xff. -/
def mair : Word :=
  0x04#64 <<< 8 ||| 0x08#64 <<< 16 ||| 0x0c#64 <<< 24 ||| 0x44#64 <<< 40 |||
    0xbb#64 <<< 48 ||| 0xff#64 <<< 56

/-- Stage-2 attributes: bits 7:6 and 3:2 of the memory type. -/
def s2Attr (ca : Cacheability) : BitVec 4 :=
  let attr : BitVec 8 := (mair >>> (8 * ca.toNat)).setWidth 8
  (attr >>> 4).setWidth 4 &&& 0xc#4 ||| (attr >>> 2).setWidth 4 &&& 0x3#4

end Memattr

/-! ## Formats -/

/-- A page-table entry format with the levels of the tables made of it. -/
structure Format where
  /-- `L`, the number of levels; the root slot has level `lev`. -/
  lev : Nat
  /-- `M`, the initial leaf limit in levels. -/
  max : Nat
  /-- `ADDR_MASK` is `BIT64_RANGE (addrBits - 1, 12)`. -/
  addrBits : Nat
  isLarge : Nat → Word → Bool
  isTable : Nat → Word → Bool
  ptabAttr : Word
  pageAttr : Nat → Permissions → Cacheability → Shareability → Word
  pagePm : Word → Permissions
  pageCa : Nat → Word → Cacheability
  pageSh : Word → Shareability

def pageSize (o : Nat) : Word := 1#64 <<< (o + pageBits)

def offsMask (o : Nat) : Word := lowMask (o + pageBits)

namespace Format

def addrMask (F : Format) : Word := bitRange (F.addrBits - 1) pageBits

/-- `Entry::addr (l)` -/
def addr (F : Format) (l : Nat) (e : Word) : Word :=
  e &&& F.addrMask &&& ~~~ offsMask (l * bpl)

/-- Everything that `lookup` reads out of a leaf but its address. -/
def decode (F : Format) (l : Nat) (e : Word) : Permissions × Cacheability × Shareability :=
  (F.pagePm e, F.pageCa l e, F.pageSh e)

/-- What reads back after encoding.  The level is immaterial (`Lawful.decode_level`). -/
def encoded (F : Format) (pm : Permissions) (ca : Cacheability) (sh : Shareability) :
    Permissions × Cacheability × Shareability :=
  F.decode 0 (F.pageAttr 0 pm ca sh)

/-- The bits of a page frame at level `l`. -/
def Frame (F : Format) (l : Nat) (f : Word) : Prop := Within (l * bpl + pageBits) F.addrBits f

/-- Attributes that every level can encode and that read back unchanged. -/
def Stable (F : Format) (pm : Permissions) (ca : Cacheability) (sh : Shareability) : Prop :=
  ∀ m, m < F.lev → F.pageAttr m pm ca sh ≠ 0#64 ∧ F.pagePm (F.pageAttr m pm ca sh) = pm ∧
    F.pageCa m (F.pageAttr m pm ca sh) = ca ∧ F.pageSh (F.pageAttr m pm ca sh) = sh

/-- What the tree algorithms rely on in a format. -/
structure Lawful (F : Format) : Prop where
  lev_pos : 0 < F.lev
  lev_le : F.lev ≤ 4
  addr_wide : F.lev * bpl + pageBits ≤ F.addrBits
  addr_fits : F.addrBits ≤ 52
  addr_min : 48 ≤ F.addrBits
  mask_bit : ∀ i, F.addrMask.getLsbD i = (decide (pageBits ≤ i) && decide (i < F.addrBits))
  /-- Leaf attributes stay clear of the frame. -/
  attr_clear : ∀ l pm ca sh, l < F.lev → ∀ i, l * bpl + pageBits ≤ i → i < F.addrBits →
    (F.pageAttr l pm ca sh).getLsbD i = false
  ptab_clear : ∀ i, pageBits ≤ i → i < F.addrBits → F.ptabAttr.getLsbD i = false
  /-- Nothing else than the address depends on the frame. -/
  large_frame : ∀ l f a, F.Frame 0 f → F.isLarge l (f ||| a) = F.isLarge l a
  table_frame : ∀ l f a, F.Frame 0 f → F.isTable l (f ||| a) = F.isTable l a
  pm_frame : ∀ l f a, F.Frame l f → a ≠ 0#64 → F.pagePm (f ||| a) = F.pagePm a
  ca_frame : ∀ l f a, F.Frame l f → F.pageCa l (f ||| a) = F.pageCa l a
  sh_frame : ∀ l f a, F.Frame l f → F.pageSh (f ||| a) = F.pageSh a
  attr_large : ∀ l pm ca sh, l ≠ 0 → F.pageAttr l pm ca sh ≠ 0#64 →
    F.isLarge l (F.pageAttr l pm ca sh) = true
  attr_table : ∀ l pm ca sh, l < F.lev → F.pageAttr l pm ca sh ≠ 0#64 →
    F.isTable l (F.pageAttr l pm ca sh) = false
  /-- Address bits below the frame do not turn a leaf into something else. -/
  attr_or : ∀ l pm ca sh x, l < F.lev → F.pageAttr l pm ca sh ≠ 0#64 → Within 7 F.addrBits x →
    F.isTable l (x ||| F.pageAttr l pm ca sh) = false ∧
    (l ≠ 0 → F.isLarge l (x ||| F.pageAttr l pm ca sh) = true) ∧
    ∀ m, F.pageAttr m (F.pagePm (x ||| F.pageAttr l pm ca sh))
      (F.pageCa l (x ||| F.pageAttr l pm ca sh)) (F.pageSh (x ||| F.pageAttr l pm ca sh)) ≠ 0#64
  /-- An encoded leaf reads back to attributes that can be encoded again. -/
  stable : ∀ l pm ca sh, F.pageAttr l pm ca sh ≠ 0#64 →
    F.Stable (F.pagePm (F.pageAttr l pm ca sh)) (F.pageCa l (F.pageAttr l pm ca sh))
      (F.pageSh (F.pageAttr l pm ca sh))
  decode_level : ∀ l pm ca sh, F.pageAttr l pm ca sh ≠ 0#64 →
    F.decode l (F.pageAttr l pm ca sh) = F.encoded pm ca sh
  /-- Whether attributes encode to nothing does not depend on the level. -/
  attr_zero : ∀ l m pm ca sh, F.pageAttr l pm ca sh = 0#64 → F.pageAttr m pm ca sh = 0#64
  attr_none : ∀ l ca sh, F.pageAttr l .none ca sh = 0#64
  attr_read : ∀ l ca sh, F.pageAttr l { r := true } ca sh ≠ 0#64
  ptab_table : ∀ l, l ≠ 0 → F.isTable l F.ptabAttr = true
  ptab_large : ∀ l, F.isLarge l F.ptabAttr = false
  root_table : F.isTable F.lev 0#64 = true
  root_large : F.isLarge F.lev 0#64 = false
  table_zero : ∀ e, F.isTable 0 e = false
  table_not_large : ∀ l e, l ≠ F.lev → F.isTable l e = true → F.isLarge l e = false

end Format

/-! ## The formats of the repository -/

namespace HptX86

/-- x86 `Hpt::page_attr` -/
def pageAttr (l : Nat) (pm : Permissions) (ca : Cacheability) (_ : Shareability) : Word :=
  if !pm.api then 0#64
  else
    flag (pm.ss || pm.w) 6                    -- ATTR_D
      ||| flag pm.g 8                         -- ATTR_G
      ||| flag pm.k 9                         -- ATTR_K
      ||| flag pm.u 2                         -- ATTR_U
      ||| flag (!(pm.xs || pm.xu)) 63         -- ATTR_nX
      ||| flag pm.w 1                         -- ATTR_W
      ||| flag (decide (l ≠ 0)) 7             -- ATTR_S
      ||| flag true 5 ||| flag true 0         -- ATTR_A, ATTR_P
      ||| flag (ca.getLsbD 2) (if l ≠ 0 then 12 else 7)
      ||| flag (ca.getLsbD 1) 4 ||| flag (ca.getLsbD 0) 3

/-- x86 `Hpt::page_pm` -/
def pagePm (e : Word) : Permissions :=
  if e = 0#64 then .none
  else
    { g := e.getLsbD 8, k := e.getLsbD 9, u := e.getLsbD 2, xs := !e.getLsbD 63,
      xu := !e.getLsbD 63, w := e.getLsbD 1, r := e.getLsbD 0 }

/-- x86 `Hpt::page_ca` -/
def pageCa (l : Nat) (e : Word) : Cacheability :=
  (e >>> (if l ≠ 0 then 10 else 5)).setWidth 3 &&& 4#3 ||| (e >>> 3).setWidth 3 &&& 3#3

end HptX86

/-- x86 `Hpt` -/
def hptX86 : Format where
  lev := 4
  max := 3
  addrBits := 52
  isLarge l e := decide (l ≠ 0) && e.getLsbD 7
  isTable l e := decide (l ≠ 0) && !e.getLsbD 7
  ptabAttr := flag true 5 ||| flag true 2 ||| flag true 1 ||| flag true 0
  pageAttr := HptX86.pageAttr
  pagePm := HptX86.pagePm
  pageCa := HptX86.pageCa
  pageSh _ := 0#2

namespace Ept

/-- `Ept::page_attr` -/
def pageAttr (mbec : Bool) (l : Nat) (pm : Permissions) (ca : Cacheability)
    (_ : Shareability) : Word :=
  if !pm.api then 0#64
  else
    flag (pm.xs || (!mbec && pm.xu)) 2        -- ATTR_XS
      ||| flag (pm.xu || (!mbec && pm.xs)) 10 -- ATTR_XU
      ||| flag pm.w 1                         -- ATTR_W
      ||| flag pm.r 0                         -- ATTR_R
      ||| flag (decide (l ≠ 0)) 7             -- ATTR_S
      ||| (Memattr.caToEpt ca).setWidth 64 <<< 3

/-- `Ept::page_pm` -/
def pagePm (e : Word) : Permissions :=
  if e = 0#64 then .none
  else { xs := e.getLsbD 2, xu := e.getLsbD 10, w := e.getLsbD 1, r := e.getLsbD 0 }

end Ept

/-- `Ept`; `mbec` is the mode-based execute control flag set by `Vmcs::init`. -/
def ept (mbec : Bool) : Format where
  lev := 4
  max := 3
  addrBits := 52
  isLarge l e := decide (l ≠ 0) && e.getLsbD 7
  isTable l e := decide (l ≠ 0) && !e.getLsbD 7
  ptabAttr := flag true 10 ||| flag true 2 ||| flag true 1 ||| flag true 0
  pageAttr := Ept.pageAttr mbec
  pagePm := Ept.pagePm
  pageCa _ e := Memattr.eptToCa ((e >>> 3).setWidth 3)
  pageSh _ := 0#2

namespace Dpt

/-- `Dpt::page_attr` -/
def pageAttr (l : Nat) (pm : Permissions) (_ : Cacheability) (_ : Shareability) : Word :=
  if !(pm.w || pm.r) then 0#64
  else flag pm.w 1 ||| flag pm.r 0 ||| flag (decide (l ≠ 0)) 7

/-- `Dpt::page_pm` -/
def pagePm (e : Word) : Permissions :=
  if e = 0#64 then .none else { w := e.getLsbD 1, r := e.getLsbD 0 }

end Dpt

/-- x86 `Dpt` -/
def dpt : Format where
  lev := 4
  max := 3
  addrBits := 52
  isLarge l e := decide (l ≠ 0) && e.getLsbD 7
  isTable l e := decide (l ≠ 0) && !e.getLsbD 7
  ptabAttr := flag true 1 ||| flag true 0
  pageAttr := Dpt.pageAttr
  pagePm := Dpt.pagePm
  pageCa _ _ := 0#3
  pageSh _ := 0#2

namespace HptArm

/-- aarch64 `Hpt::page_attr` -/
def pageAttr (l : Nat) (pm : Permissions) (ca : Cacheability) (sh : Shareability) : Word :=
  if !pm.api then 0#64
  else
    flag (!pm.g) 11                           -- ATTR_nG
      ||| flag pm.k 55                        -- ATTR_K
      ||| flag pm.u 6                         -- ATTR_U
      ||| flag (!pm.xs) 54                    -- ATTR_nX
      ||| flag (!pm.w) 7                      -- ATTR_nW
      ||| sh.setWidth 64 <<< 8 ||| ca.setWidth 64 <<< 2
      ||| flag (decide (l = 0)) 1             -- ATTR_nL
      ||| flag true 10 ||| flag true 0        -- ATTR_A, ATTR_P

/-- aarch64 `Hpt::page_pm` -/
def pagePm (e : Word) : Permissions :=
  if e = 0#64 then .none
  else
    { g := !e.getLsbD 11, k := e.getLsbD 55, u := e.getLsbD 6, xs := !e.getLsbD 54,
      w := !e.getLsbD 7, r := e.getLsbD 0 }

end HptArm

/-- aarch64 `Hpt` -/
def hptArm : Format where
  lev := 4
  max := 3
  addrBits := 48
  isLarge l e := decide (l ≠ 0) && (!e.getLsbD 1 && e.getLsbD 0)
  isTable l e := decide (l = 4) || (decide (l ≠ 0) && (e.getLsbD 1 && e.getLsbD 0))
  ptabAttr := flag true 1 ||| flag true 0
  pageAttr := HptArm.pageAttr
  pagePm := HptArm.pagePm
  pageCa _ e := (e >>> 2).setWidth 3
  pageSh e := (e >>> 8).setWidth 2

namespace Npt

/-- `Npt::page_attr` -/
def pageAttr (xnx : Bool) (l : Nat) (pm : Permissions) (ca : Cacheability)
    (sh : Shareability) : Word :=
  let nxs := !pm.xs
  let nxu := !pm.xu
  if !pm.api then 0#64
  else
    flag pm.k 55                              -- ATTR_K
      ||| flag ((nxs && nxu) || (xnx && nxu)) 54 -- ATTR_nX1
      ||| flag ((nxs ^^ nxu) && xnx) 53       -- ATTR_nX0
      ||| flag pm.w 7                         -- ATTR_W
      ||| flag pm.r 6                         -- ATTR_R
      ||| sh.setWidth 64 <<< 8 ||| (Memattr.s2Attr ca).setWidth 64 <<< 2
      ||| flag (decide (l = 0)) 1             -- ATTR_nL
      ||| flag true 10 ||| flag true 0        -- ATTR_A, ATTR_P

/-- `Npt::page_pm` -/
def pagePm (e : Word) : Permissions :=
  if e = 0#64 then .none
  else
    { k := e.getLsbD 55, xs := !((!e.getLsbD 54) ^^ (!e.getLsbD 53)), xu := !e.getLsbD 54,
      w := e.getLsbD 7, r := e.getLsbD 6 }

/-- `Npt::page_ca` -/
def pageCa (_ : Nat) (e : Word) : Cacheability :=
  (if e.getLsbD 5 || e.getLsbD 4 then 4#3 else 0#3) + ((e >>> 2).setWidth 3 &&& 3#3)

end Npt

/-- `Npt`; `xnx` is the execute-never extension flag set by `Cpu::init`. -/
def npt (xnx : Bool) : Format where
  lev := 3
  max := 3
  addrBits := 48
  isLarge l e := decide (l ≠ 0) && (!e.getLsbD 1 && e.getLsbD 0)
  isTable l e := decide (l = 3) || (decide (l ≠ 0) && (e.getLsbD 1 && e.getLsbD 0))
  ptabAttr := flag true 1 ||| flag true 0
  pageAttr := Npt.pageAttr xnx
  pagePm := Npt.pagePm
  pageCa := Npt.pageCa
  pageSh e := (e >>> 8).setWidth 2

/-- The instances of `Pagetable` in the repository, by entry format. -/
inductive Fmt where
  | hptX86
  | ept (mbec : Bool)
  | dpt
  | hptArm
  | npt (xnx : Bool)
  deriving DecidableEq, Repr

def Fmt.format : Fmt → Format
  | .hptX86 => Kernel.hptX86
  | .ept mbec => Kernel.ept mbec
  | .dpt => Kernel.dpt
  | .hptArm => Kernel.hptArm
  | .npt xnx => Kernel.npt xnx

/-! ## The laws, format by format -/

/-- Bits 0 to 11 and those above the address width are clear in a frame. -/
theorem Format.Frame.clear {F : Format} {l : Nat} {f : Word} (frame : F.Frame l f) {i : Nat}
    (hi : i < 64) (outside : i < 12 ∨ F.addrBits ≤ i) : f[i] = false := by
  refine Within.getElem frame hi ?_
  rcases outside with low | high
  · exact Or.inl (by simp only [pageBits]; omega)
  · exact Or.inr high

theorem or_ne_zero {f a : Word} (ne : a ≠ 0#64) : f ||| a ≠ 0#64 := fun zero =>
  ne (BitVec.or_eq_zero_iff.mp zero).2

theorem bitRange_bit (n : Nat) (width : n = 52 ∨ n = 48) (i : Nat) :
    (bitRange (n - 1) pageBits).getLsbD i = (decide (pageBits ≤ i) && decide (i < n)) := by
  by_cases hi : i < 64
  · rcases width with rfl | rfl
    · exact (by decide : ∀ i : Fin 64, (bitRange 51 pageBits).getLsbD i =
        (decide (pageBits ≤ i.val) && decide (i.val < 52))) ⟨i, hi⟩
    · exact (by decide : ∀ i : Fin 64, (bitRange 47 pageBits).getLsbD i =
        (decide (pageBits ≤ i.val) && decide (i.val < 48))) ⟨i, hi⟩
  · rw [BitVec.getLsbD_of_ge _ _ (by omega)]
    simp
    omega

/-- Equality of three-bit fields, bit by bit. -/
theorem eq_of_three_bits {x y : BitVec 3} (h0 : x[0] = y[0]) (h1 : x[1] = y[1])
    (h2 : x[2] = y[2]) : x = y := by
  apply BitVec.eq_of_getElem_eq
  intro i hi
  obtain rfl | rfl | rfl : i = 0 ∨ i = 1 ∨ i = 2 := by omega
  · exact h0
  · exact h1
  · exact h2

namespace HptX86

theorem pageAttr_ne_zero (l : Nat) (pm : Permissions) (ca : Cacheability) (sh : Shareability) :
    pageAttr l pm ca sh ≠ 0#64 ↔ pm.api = true := by
  constructor
  · intro ne
    by_contra none
    exact ne (by simp [pageAttr, none])
  · intro api zero
    have present := congrArg (fun e : Word => e[0]) zero
    simp [pageAttr, api] at present

theorem pagePm_pageAttr (l : Nat) {pm : Permissions} (ca : Cacheability) (sh : Shareability)
    (api : pm.api = true) :
    pagePm (pageAttr l pm ca sh) =
      { g := pm.g, k := pm.k, u := pm.u, xs := pm.xs || pm.xu, xu := pm.xs || pm.xu,
        w := pm.w, r := true } := by
  rw [pagePm, if_neg ((pageAttr_ne_zero l pm ca sh).mpr api)]
  by_cases h : l = 0 <;> simp [pageAttr, api, h]

theorem pageCa_pageAttr (l : Nat) {pm : Permissions} (ca : Cacheability) (sh : Shareability)
    (api : pm.api = true) : pageCa l (pageAttr l pm ca sh) = ca := by
  by_cases h : l = 0 <;>
    exact eq_of_three_bits (by simp [pageCa, pageAttr, api, h]) (by simp [pageCa, pageAttr, api, h])
      (by simp [pageCa, pageAttr, api, h])

end HptX86

theorem hptX86_lawful : hptX86.Lawful where
  lev_pos := by decide
  lev_le := by decide
  addr_wide := by decide
  addr_fits := by decide
  addr_min := by decide
  mask_bit := bitRange_bit 52 (by decide)
  attr_clear l pm ca sh hl i hi hi' := by
    simp only [hptX86, bpl, pageBits] at hi hi' hl ⊢
    by_cases h : l = 0 <;> simp [HptX86.pageAttr, h] <;> split <;> simp <;> omega
  ptab_clear i hi hi' := by
    simp only [hptX86, pageBits] at hi hi' ⊢
    simp; omega
  large_frame l f a frame := by simp [hptX86, frame.clear]
  table_frame l f a frame := by simp [hptX86, frame.clear]
  pm_frame l f a frame ne := by
    simp [hptX86, HptX86.pagePm, ne, or_ne_zero ne, frame.clear]
  ca_frame l f a frame := by
    -- the PAT bit of a large page is address bit 12, below every large frame
    by_cases h : l = 0
    · exact eq_of_three_bits (by simp [hptX86, HptX86.pageCa, frame.clear, h])
        (by simp [hptX86, HptX86.pageCa, frame.clear, h])
        (by simp [hptX86, HptX86.pageCa, frame.clear, h])
    · have pat : f[12] = false :=
        Within.getElem frame (by decide) (Or.inl (by simp only [bpl, pageBits]; omega))
      exact eq_of_three_bits (by simp [hptX86, HptX86.pageCa, frame.clear, h])
        (by simp [hptX86, HptX86.pageCa, frame.clear, h])
        (by simp [hptX86, HptX86.pageCa, pat, h])
  sh_frame l f a frame := rfl
  attr_large l pm ca sh hl ne := by
    have api := (HptX86.pageAttr_ne_zero l pm ca sh).mp ne
    simp [hptX86, HptX86.pageAttr, api, hl]
  attr_table l pm ca sh hl ne := by
    have api := (HptX86.pageAttr_ne_zero l pm ca sh).mp ne
    by_cases h : l = 0 <;> simp [hptX86, HptX86.pageAttr, api, h]
  attr_or l pm ca sh x hl ne field := by
    have api := (HptX86.pageAttr_ne_zero l pm ca sh).mp ne
    refine ⟨?_, fun h => by simp [hptX86, HptX86.pageAttr, api, h], fun m => ?_⟩
    · by_cases h : l = 0 <;> simp [hptX86, HptX86.pageAttr, api, h]
    · have ne' : x ||| HptX86.pageAttr l pm ca sh ≠ 0#64 := or_ne_zero ne
      apply (HptX86.pageAttr_ne_zero m _ _ 0#2).mpr
      have present : (x ||| HptX86.pageAttr l pm ca sh).getLsbD 0 = true := by
        simp [HptX86.pageAttr, api]
      simp only [hptX86, HptX86.pagePm, if_neg ne', Permissions.api, present, Bool.or_true]
  stable l pm ca sh ne m hm := by
    have api := (HptX86.pageAttr_ne_zero l pm ca sh).mp ne
    simp only [hptX86]
    rw [HptX86.pagePm_pageAttr l ca sh api, HptX86.pageCa_pageAttr l ca sh api]
    refine ⟨(HptX86.pageAttr_ne_zero _ _ _ _).mpr (by simp [Permissions.api]), ?_,
      HptX86.pageCa_pageAttr _ _ _ (by simp [Permissions.api]), trivial⟩
    rw [HptX86.pagePm_pageAttr _ _ _ (by simp [Permissions.api])]
    simp
  decode_level l pm ca sh ne := by
    have api := (HptX86.pageAttr_ne_zero l pm ca sh).mp ne
    simp only [Format.encoded, Format.decode, hptX86]
    rw [HptX86.pagePm_pageAttr l ca sh api, HptX86.pageCa_pageAttr l ca sh api,
      HptX86.pagePm_pageAttr 0 ca sh api, HptX86.pageCa_pageAttr 0 ca sh api]
  attr_zero l m pm ca sh zero := by
    have none : ¬ pm.api = true := fun h => (HptX86.pageAttr_ne_zero l pm ca sh).mpr h zero
    simp [hptX86, HptX86.pageAttr, none]
  attr_none l ca sh := rfl
  attr_read l ca sh := (HptX86.pageAttr_ne_zero l { r := true } ca sh).mpr rfl
  ptab_table l hl := by simp [hptX86, hl]
  ptab_large l := by simp [hptX86]
  root_table := by decide
  root_large := by decide
  table_zero e := by simp [hptX86]
  table_not_large l e hl h := by simp [hptX86] at h ⊢; simp [h]

namespace Ept

theorem pageAttr_ne_zero (mbec : Bool) (l : Nat) (pm : Permissions) (ca : Cacheability)
    (sh : Shareability) : pageAttr mbec l pm ca sh ≠ 0#64 ↔ pm.api = true := by
  constructor
  · intro ne
    by_contra none
    exact ne (by simp [pageAttr, none])
  · intro api zero
    have bit := fun (i : Nat) (hi : i < 64) => congrArg (fun e : Word => e.getLsbD i) zero
    have h0 := bit 0 (by decide)
    have h1 := bit 1 (by decide)
    have h2 := bit 2 (by decide)
    have h10 := bit 10 (by decide)
    simp [pageAttr, api] at h0 h1 h2 h10
    simp [Permissions.api, h0, h1, h2.1, h10.1] at api

theorem pagePm_pageAttr (mbec : Bool) (l : Nat) {pm : Permissions} (ca : Cacheability)
    (sh : Shareability) (api : pm.api = true) :
    pagePm (pageAttr mbec l pm ca sh) =
      { xs := pm.xs || (!mbec && pm.xu), xu := pm.xu || (!mbec && pm.xs), w := pm.w, r := pm.r } := by
  rw [pagePm, if_neg ((pageAttr_ne_zero mbec l pm ca sh).mpr api)]
  simp [pageAttr, api]

theorem pageCa_pageAttr (mbec : Bool) (l : Nat) {pm : Permissions} (ca : Cacheability)
    (sh : Shareability) (api : pm.api = true) :
    (pageAttr mbec l pm ca sh >>> 3).setWidth 3 = Memattr.caToEpt ca :=
  eq_of_three_bits (by simp [pageAttr, api]) (by simp [pageAttr, api]) (by simp [pageAttr, api])

end Ept

theorem ept_lawful (mbec : Bool) : (ept mbec).Lawful where
  lev_pos := by simp [ept]
  lev_le := by simp [ept]
  addr_wide := by simp [ept, bpl, pageBits]
  addr_fits := by simp [ept]
  addr_min := by simp [ept]
  mask_bit := bitRange_bit 52 (by decide)
  attr_clear l pm ca sh hl i hi hi' := by
    simp only [ept, bpl, pageBits] at hi hi' hl ⊢
    have ca_low := BitVec.getLsbD_of_ge (Memattr.caToEpt ca) (i - 3) (by omega)
    simp only [Ept.pageAttr]
    split
    · simp
    · simp [ca_low]
      omega
  ptab_clear i hi hi' := by
    simp only [ept, pageBits] at hi hi' ⊢
    simp; omega
  large_frame l f a frame := by simp [ept, frame.clear]
  table_frame l f a frame := by simp [ept, frame.clear]
  pm_frame l f a frame ne := by simp [ept, Ept.pagePm, ne, or_ne_zero ne, frame.clear]
  ca_frame l f a frame := by
    simp only [ept]
    congr 1
    exact eq_of_three_bits (by simp [frame.clear]) (by simp [frame.clear]) (by simp [frame.clear])
  sh_frame l f a frame := rfl
  attr_large l pm ca sh hl ne := by
    have api := (Ept.pageAttr_ne_zero mbec l pm ca sh).mp ne
    simp [ept, Ept.pageAttr, api, hl]
  attr_table l pm ca sh hl ne := by
    have api := (Ept.pageAttr_ne_zero mbec l pm ca sh).mp ne
    by_cases h : l = 0 <;> simp [ept, Ept.pageAttr, api, h]
  attr_or l pm ca sh x hl ne field := by
    have api := (Ept.pageAttr_ne_zero mbec l pm ca sh).mp ne
    refine ⟨?_, fun h => by simp [ept, Ept.pageAttr, api, h], fun m => ?_⟩
    · by_cases h : l = 0 <;> simp [ept, Ept.pageAttr, api, h]
    · have ne' : x ||| Ept.pageAttr mbec l pm ca sh ≠ 0#64 := or_ne_zero ne
      apply (Ept.pageAttr_ne_zero mbec m _ _ 0#2).mpr
      simp only [ept, Ept.pagePm, if_neg ne']
      simp only [Permissions.api, Bool.or_eq_true] at api
      rcases api with ((xs | xu) | w) | r
      · simp [Ept.pageAttr, Permissions.api, xs]
      · simp [Ept.pageAttr, Permissions.api, xu]
      · simp [Ept.pageAttr, Permissions.api, w]
      · simp [Ept.pageAttr, Permissions.api, r]
  stable l pm ca sh ne m hm := by
    have api := (Ept.pageAttr_ne_zero mbec l pm ca sh).mp ne
    have again : (⟨pm.r, pm.w, pm.xu || (!mbec && pm.xs), pm.xs || (!mbec && pm.xu),
        false, false, false, false⟩ : Permissions).api = true := by
      simp only [Permissions.api, Bool.or_eq_true] at api ⊢
      rcases api with ((xs | xu) | w) | r
      · exact Or.inl (Or.inl (Or.inl (by simp [xs])))
      · exact Or.inl (Or.inl (Or.inr (by simp [xu])))
      · exact Or.inl (Or.inr w)
      · exact Or.inr r
    have ca' : ∀ ca : Cacheability,
        Memattr.eptToCa (Memattr.caToEpt (Memattr.eptToCa (Memattr.caToEpt ca))) =
          Memattr.eptToCa (Memattr.caToEpt ca) := by decide
    simp only [ept]
    rw [Ept.pagePm_pageAttr mbec l ca sh api, Ept.pageCa_pageAttr mbec l ca sh api]
    refine ⟨(Ept.pageAttr_ne_zero _ _ _ _ _).mpr again, ?_, ?_, trivial⟩
    · rw [Ept.pagePm_pageAttr _ _ _ _ again]
      cases mbec <;> cases pm.xs <;> cases pm.xu <;> simp
    · rw [Ept.pageCa_pageAttr _ _ _ _ again, ca']
  decode_level l pm ca sh ne := by
    have api := (Ept.pageAttr_ne_zero mbec l pm ca sh).mp ne
    simp only [Format.encoded, Format.decode, ept]
    rw [Ept.pagePm_pageAttr mbec l ca sh api, Ept.pageCa_pageAttr mbec l ca sh api,
      Ept.pagePm_pageAttr mbec 0 ca sh api, Ept.pageCa_pageAttr mbec 0 ca sh api]
  attr_zero l m pm ca sh zero := by
    have none : ¬ pm.api = true := fun h => (Ept.pageAttr_ne_zero mbec l pm ca sh).mpr h zero
    simp [ept, Ept.pageAttr, none]
  attr_none l ca sh := rfl
  attr_read l ca sh := (Ept.pageAttr_ne_zero mbec l { r := true } ca sh).mpr rfl
  ptab_table l hl := by simp [ept, hl]
  ptab_large l := by simp [ept]
  root_table := by simp [ept]
  root_large := by simp [ept]
  table_zero e := by simp [ept]
  table_not_large l e hl h := by simp [ept] at h ⊢; simp [h]

namespace Dpt

theorem pageAttr_ne_zero (l : Nat) (pm : Permissions) (ca : Cacheability) (sh : Shareability) :
    pageAttr l pm ca sh ≠ 0#64 ↔ (pm.w || pm.r) = true := by
  constructor
  · intro ne
    by_contra none
    exact ne (by rw [Bool.not_eq_true] at none; simp [pageAttr, none])
  · intro some zero
    have bit := fun (i : Nat) (hi : i < 64) => congrArg (fun e : Word => e.getLsbD i) zero
    have h0 := bit 0 (by decide)
    have h1 := bit 1 (by decide)
    simp [pageAttr, some] at h0 h1
    simp [h0, h1] at some

theorem pagePm_pageAttr (l : Nat) {pm : Permissions} (ca : Cacheability) (sh : Shareability)
    (some : (pm.w || pm.r) = true) :
    pagePm (pageAttr l pm ca sh) = { w := pm.w, r := pm.r } := by
  rw [pagePm, if_neg ((pageAttr_ne_zero l pm ca sh).mpr some)]
  simp [pageAttr, some]

end Dpt

theorem dpt_lawful : dpt.Lawful where
  lev_pos := by decide
  lev_le := by decide
  addr_wide := by decide
  addr_fits := by decide
  addr_min := by decide
  mask_bit := bitRange_bit 52 (by decide)
  attr_clear l pm ca sh hl i hi hi' := by
    simp only [dpt, bpl, pageBits] at hi hi' hl ⊢
    simp only [Dpt.pageAttr]
    split
    · simp
    · simp
      omega
  ptab_clear i hi hi' := by
    simp only [dpt, pageBits] at hi hi' ⊢
    simp; omega
  large_frame l f a frame := by simp [dpt, frame.clear]
  table_frame l f a frame := by simp [dpt, frame.clear]
  pm_frame l f a frame ne := by simp [dpt, Dpt.pagePm, ne, or_ne_zero ne, frame.clear]
  ca_frame l f a frame := rfl
  sh_frame l f a frame := rfl
  attr_large l pm ca sh hl ne := by
    have some := (Dpt.pageAttr_ne_zero l pm ca sh).mp ne
    simp [dpt, Dpt.pageAttr, some, hl]
  attr_table l pm ca sh hl ne := by
    have some := (Dpt.pageAttr_ne_zero l pm ca sh).mp ne
    by_cases h : l = 0 <;> simp [dpt, Dpt.pageAttr, some, h]
  attr_or l pm ca sh x hl ne field := by
    have some := (Dpt.pageAttr_ne_zero l pm ca sh).mp ne
    refine ⟨?_, fun h => by simp [dpt, Dpt.pageAttr, some, h], fun m => ?_⟩
    · by_cases h : l = 0 <;> simp [dpt, Dpt.pageAttr, some, h]
    · have ne' : x ||| Dpt.pageAttr l pm ca sh ≠ 0#64 := or_ne_zero ne
      apply (Dpt.pageAttr_ne_zero m _ 0#3 0#2).mpr
      simp only [dpt, Dpt.pagePm, if_neg ne']
      rcases (Bool.or_eq_true _ _).mp some with w | r
      · simp [Dpt.pageAttr, w]
      · simp [Dpt.pageAttr, r]
  stable l pm ca sh ne m hm := by
    have some := (Dpt.pageAttr_ne_zero l pm ca sh).mp ne
    simp only [dpt]
    rw [Dpt.pagePm_pageAttr l ca sh some]
    have same : Dpt.pagePm (Dpt.pageAttr m { w := pm.w, r := pm.r } 0#3 0#2) =
        { w := pm.w, r := pm.r } := Dpt.pagePm_pageAttr m 0#3 0#2 some
    exact ⟨(Dpt.pageAttr_ne_zero _ _ _ _).mpr some, same, trivial, trivial⟩
  decode_level l pm ca sh ne := by
    have some := (Dpt.pageAttr_ne_zero l pm ca sh).mp ne
    simp only [Format.encoded, Format.decode, dpt]
    rw [Dpt.pagePm_pageAttr l ca sh some, Dpt.pagePm_pageAttr 0 ca sh some]
  attr_zero l m pm ca sh zero := by
    have none : ¬ (pm.w || pm.r) = true := fun h => (Dpt.pageAttr_ne_zero l pm ca sh).mpr h zero
    rw [Bool.not_eq_true] at none
    simp [dpt, Dpt.pageAttr, none]
  attr_none l ca sh := rfl
  attr_read l ca sh := (Dpt.pageAttr_ne_zero l { r := true } ca sh).mpr rfl
  ptab_table l hl := by simp [dpt, hl]
  ptab_large l := by simp [dpt]
  root_table := by decide
  root_large := by decide
  table_zero e := by simp [dpt]
  table_not_large l e hl h := by simp [dpt] at h ⊢; simp [h]

namespace HptArm

theorem pageAttr_ne_zero (l : Nat) (pm : Permissions) (ca : Cacheability) (sh : Shareability) :
    pageAttr l pm ca sh ≠ 0#64 ↔ pm.api = true := by
  constructor
  · intro ne
    by_contra none
    exact ne (by simp [pageAttr, none])
  · intro api zero
    have present := congrArg (fun e : Word => e[0]) zero
    simp [pageAttr, api] at present

theorem pagePm_pageAttr (l : Nat) {pm : Permissions} (ca : Cacheability) (sh : Shareability)
    (api : pm.api = true) :
    pagePm (pageAttr l pm ca sh) =
      { g := pm.g, k := pm.k, u := pm.u, xs := pm.xs, w := pm.w, r := true } := by
  rw [pagePm, if_neg ((pageAttr_ne_zero l pm ca sh).mpr api)]
  simp [pageAttr, api]

theorem pageCa_pageAttr (l : Nat) {pm : Permissions} (ca : Cacheability) (sh : Shareability)
    (api : pm.api = true) : (pageAttr l pm ca sh >>> 2).setWidth 3 = ca :=
  eq_of_three_bits (by simp [pageAttr, api]) (by simp [pageAttr, api]) (by simp [pageAttr, api])

theorem pageSh_pageAttr (l : Nat) {pm : Permissions} (ca : Cacheability) (sh : Shareability)
    (api : pm.api = true) : (pageAttr l pm ca sh >>> 8).setWidth 2 = sh := by
  apply BitVec.eq_of_getElem_eq
  intro i hi
  obtain rfl | rfl : i = 0 ∨ i = 1 := by omega
  · simp [pageAttr, api]
  · simp [pageAttr, api]

end HptArm

theorem hptArm_lawful : hptArm.Lawful where
  lev_pos := by decide
  lev_le := by decide
  addr_wide := by decide
  addr_fits := by decide
  addr_min := by decide
  mask_bit := bitRange_bit 48 (by decide)
  attr_clear l pm ca sh hl i hi hi' := by
    simp only [hptArm, bpl, pageBits] at hi hi' hl ⊢
    have sh_low := BitVec.getLsbD_of_ge sh (i - 8) (by omega)
    have ca_low := BitVec.getLsbD_of_ge ca (i - 2) (by omega)
    simp only [HptArm.pageAttr]
    split
    · simp
    · simp [sh_low, ca_low]
      omega
  ptab_clear i hi hi' := by
    simp only [hptArm, pageBits] at hi hi' ⊢
    simp; omega
  large_frame l f a frame := by simp [hptArm, frame.clear]
  table_frame l f a frame := by simp [hptArm, frame.clear]
  pm_frame l f a frame ne := by
    simp [hptArm, HptArm.pagePm, ne, or_ne_zero ne, frame.clear]
  ca_frame l f a frame :=
    eq_of_three_bits (by simp [hptArm, frame.clear]) (by simp [hptArm, frame.clear])
      (by simp [hptArm, frame.clear])
  sh_frame l f a frame := by
    apply BitVec.eq_of_getElem_eq
    intro i hi
    obtain rfl | rfl : i = 0 ∨ i = 1 := by omega
    · simp [hptArm, frame.clear]
    · simp [hptArm, frame.clear]
  attr_large l pm ca sh hl ne := by
    have api := (HptArm.pageAttr_ne_zero l pm ca sh).mp ne
    simp [hptArm, HptArm.pageAttr, api, hl]
  attr_table l pm ca sh hl ne := by
    have api := (HptArm.pageAttr_ne_zero l pm ca sh).mp ne
    have top : l ≠ 4 := by simp only [hptArm] at hl; omega
    by_cases h : l = 0 <;> simp [hptArm, HptArm.pageAttr, api, h, top]
  attr_or l pm ca sh x hl ne field := by
    have api := (HptArm.pageAttr_ne_zero l pm ca sh).mp ne
    have top : l ≠ 4 := by simp only [hptArm] at hl; omega
    have clear : x[1] = false := field.getElem (by decide) (Or.inl (by decide))
    refine ⟨?_, fun h => by simp [hptArm, HptArm.pageAttr, api, h, clear], fun m => ?_⟩
    · by_cases h : l = 0 <;> simp [hptArm, HptArm.pageAttr, api, h, top, clear]
    · have ne' : x ||| HptArm.pageAttr l pm ca sh ≠ 0#64 := or_ne_zero ne
      apply (HptArm.pageAttr_ne_zero m _ _ _).mpr
      have present : (x ||| HptArm.pageAttr l pm ca sh).getLsbD 0 = true := by
        simp [HptArm.pageAttr, api]
      simp only [hptArm, HptArm.pagePm, if_neg ne', Permissions.api, present, Bool.or_true]
  stable l pm ca sh ne m hm := by
    have api := (HptArm.pageAttr_ne_zero l pm ca sh).mp ne
    simp only [hptArm]
    rw [HptArm.pagePm_pageAttr l ca sh api, HptArm.pageCa_pageAttr l ca sh api,
      HptArm.pageSh_pageAttr l ca sh api]
    refine ⟨(HptArm.pageAttr_ne_zero _ _ _ _).mpr (by simp [Permissions.api]), ?_,
      HptArm.pageCa_pageAttr _ _ _ (by simp [Permissions.api]),
      HptArm.pageSh_pageAttr _ _ _ (by simp [Permissions.api])⟩
    rw [HptArm.pagePm_pageAttr _ _ _ (by simp [Permissions.api])]
  decode_level l pm ca sh ne := by
    have api := (HptArm.pageAttr_ne_zero l pm ca sh).mp ne
    simp only [Format.encoded, Format.decode, hptArm]
    rw [HptArm.pagePm_pageAttr l ca sh api, HptArm.pageCa_pageAttr l ca sh api,
      HptArm.pageSh_pageAttr l ca sh api, HptArm.pagePm_pageAttr 0 ca sh api,
      HptArm.pageCa_pageAttr 0 ca sh api, HptArm.pageSh_pageAttr 0 ca sh api]
  attr_zero l m pm ca sh zero := by
    have none : ¬ pm.api = true := fun h => (HptArm.pageAttr_ne_zero l pm ca sh).mpr h zero
    simp [hptArm, HptArm.pageAttr, none]
  attr_none l ca sh := rfl
  attr_read l ca sh := (HptArm.pageAttr_ne_zero l { r := true } ca sh).mpr rfl
  ptab_table l hl := by simp [hptArm, hl]
  ptab_large l := by simp [hptArm]
  root_table := by decide
  root_large := by decide
  table_zero e := by simp [hptArm]
  table_not_large l e hl h := by
    have top : l ≠ 4 := hl
    simp [hptArm, top] at h ⊢; simp [h]

namespace Npt

theorem pageAttr_ne_zero (xnx : Bool) (l : Nat) (pm : Permissions) (ca : Cacheability)
    (sh : Shareability) : pageAttr xnx l pm ca sh ≠ 0#64 ↔ pm.api = true := by
  constructor
  · intro ne
    by_contra none
    exact ne (by simp [pageAttr, none])
  · intro api zero
    have present := congrArg (fun e : Word => e[0]) zero
    simp [pageAttr, api] at present

/-- The execute permissions that the encoding keeps: both as given with the
execute-never extension, one for both without. -/
theorem pagePm_pageAttr (xnx : Bool) (l : Nat) {pm : Permissions} (ca : Cacheability)
    (sh : Shareability) (api : pm.api = true) :
    pagePm (pageAttr xnx l pm ca sh) =
      { k := pm.k, xs := pm.xs || (!xnx && pm.xu), xu := pm.xu || (!xnx && pm.xs), w := pm.w,
        r := pm.r } := by
  rw [pagePm, if_neg ((pageAttr_ne_zero xnx l pm ca sh).mpr api)]
  obtain ⟨r, w, xu, xs, u, k, g, ss⟩ := pm
  cases xnx <;> cases xs <;> cases xu <;> simp [pageAttr, api]

/-- The cacheability that stage 2 keeps. -/
def caOf (ca : Cacheability) : Cacheability :=
  (if (Memattr.s2Attr ca)[3] || (Memattr.s2Attr ca)[2] then 4#3 else 0#3) +
    ((Memattr.s2Attr ca).setWidth 3 &&& 3#3)

theorem pageCa_pageAttr (xnx : Bool) (l : Nat) {pm : Permissions} (ca : Cacheability)
    (sh : Shareability) (api : pm.api = true) :
    pageCa l (pageAttr xnx l pm ca sh) = caOf ca := by
  have low : (pageAttr xnx l pm ca sh >>> 2).setWidth 3 &&& 3#3 =
      (Memattr.s2Attr ca).setWidth 3 &&& 3#3 :=
    eq_of_three_bits (by simp [pageAttr, api]) (by simp [pageAttr, api]) (by simp)
  rw [pageCa, caOf, low]
  simp [pageAttr, api]

theorem pageSh_pageAttr (xnx : Bool) (l : Nat) {pm : Permissions} (ca : Cacheability)
    (sh : Shareability) (api : pm.api = true) :
    (pageAttr xnx l pm ca sh >>> 8).setWidth 2 = sh := by
  apply BitVec.eq_of_getElem_eq
  intro i hi
  obtain rfl | rfl : i = 0 ∨ i = 1 := by omega
  · simp [pageAttr, api]
  · simp [pageAttr, api]

end Npt

theorem npt_lawful (xnx : Bool) : (npt xnx).Lawful where
  lev_pos := by simp [npt]
  lev_le := by simp [npt]
  addr_wide := by simp [npt, bpl, pageBits]
  addr_fits := by simp [npt]
  addr_min := by simp [npt]
  mask_bit := bitRange_bit 48 (by decide)
  attr_clear l pm ca sh hl i hi hi' := by
    simp only [npt, bpl, pageBits] at hi hi' hl ⊢
    have sh_low := BitVec.getLsbD_of_ge sh (i - 8) (by omega)
    have ca_low := BitVec.getLsbD_of_ge (Memattr.s2Attr ca) (i - 2) (by omega)
    simp only [Npt.pageAttr]
    split
    · simp
    · simp [sh_low, ca_low]
      omega
  ptab_clear i hi hi' := by
    simp only [npt, pageBits] at hi hi' ⊢
    simp; omega
  large_frame l f a frame := by simp [npt, frame.clear]
  table_frame l f a frame := by simp [npt, frame.clear]
  pm_frame l f a frame ne := by
    simp [npt, Npt.pagePm, ne, or_ne_zero ne, frame.clear]
  ca_frame l f a frame := by
    have low : ((f ||| a) >>> 2).setWidth 3 &&& 3#3 = (a >>> 2).setWidth 3 &&& 3#3 :=
      eq_of_three_bits (by simp [frame.clear]) (by simp [frame.clear]) (by simp)
    simp only [npt, Npt.pageCa]
    rw [low]
    simp [frame.clear]
  sh_frame l f a frame := by
    apply BitVec.eq_of_getElem_eq
    intro i hi
    obtain rfl | rfl : i = 0 ∨ i = 1 := by omega
    · simp [npt, frame.clear]
    · simp [npt, frame.clear]
  attr_large l pm ca sh hl ne := by
    have api := (Npt.pageAttr_ne_zero xnx l pm ca sh).mp ne
    simp [npt, Npt.pageAttr, api, hl]
  attr_table l pm ca sh hl ne := by
    have api := (Npt.pageAttr_ne_zero xnx l pm ca sh).mp ne
    have top : l ≠ 3 := by simp only [npt] at hl; omega
    by_cases h : l = 0 <;> simp [npt, Npt.pageAttr, api, h, top]
  attr_or l pm ca sh x hl ne field := by
    have api := (Npt.pageAttr_ne_zero xnx l pm ca sh).mp ne
    have top : l ≠ 3 := by simp only [npt] at hl; omega
    have clear : x[1] = false := field.getElem (by decide) (Or.inl (by decide))
    have nx1 : x[54] = false := field.getElem (by decide) (Or.inr (by simp [npt]))
    have nx0 : x[53] = false := field.getElem (by decide) (Or.inr (by simp [npt]))
    refine ⟨?_, fun h => by simp [npt, Npt.pageAttr, api, h, clear], fun m => ?_⟩
    · by_cases h : l = 0 <;> simp [npt, Npt.pageAttr, api, h, top, clear]
    · have ne' : x ||| Npt.pageAttr xnx l pm ca sh ≠ 0#64 := or_ne_zero ne
      apply (Npt.pageAttr_ne_zero xnx m _ _ _).mpr
      simp only [npt, Npt.pagePm, if_neg ne']
      obtain ⟨r, w, xu, xs, u, k, g, ss⟩ := pm
      simp only [Permissions.api, Bool.or_eq_true] at api
      rcases api with ((rfl | rfl) | rfl) | rfl
      · cases xu <;> cases xnx <;> simp [Npt.pageAttr, Permissions.api, nx1, nx0]
      · cases xs <;> cases xnx <;> simp [Npt.pageAttr, Permissions.api, nx1, nx0]
      · simp [Npt.pageAttr, Permissions.api]
      · simp [Npt.pageAttr, Permissions.api]
  stable l pm ca sh ne m hm := by
    have api := (Npt.pageAttr_ne_zero xnx l pm ca sh).mp ne
    have again : (⟨pm.r, pm.w, pm.xu || (!xnx && pm.xs), pm.xs || (!xnx && pm.xu),
        false, pm.k, false, false⟩ : Permissions).api = true := by
      simp only [Permissions.api, Bool.or_eq_true] at api ⊢
      rcases api with ((xs | xu) | w) | r
      · exact Or.inl (Or.inl (Or.inl (by simp [xs])))
      · exact Or.inl (Or.inl (Or.inr (by simp [xu])))
      · exact Or.inl (Or.inr w)
      · exact Or.inr r
    have ca' : ∀ ca : Cacheability, Npt.caOf (Npt.caOf ca) = Npt.caOf ca := by decide
    simp only [npt]
    rw [Npt.pagePm_pageAttr xnx l ca sh api, Npt.pageCa_pageAttr xnx l ca sh api,
      Npt.pageSh_pageAttr xnx l ca sh api]
    refine ⟨(Npt.pageAttr_ne_zero _ _ _ _ _).mpr again, ?_, ?_, Npt.pageSh_pageAttr _ _ _ _ again⟩
    · rw [Npt.pagePm_pageAttr _ _ _ _ again]
      cases xnx <;> cases pm.xs <;> cases pm.xu <;> simp
    · rw [Npt.pageCa_pageAttr _ _ _ _ again, ca']
  decode_level l pm ca sh ne := by
    have api := (Npt.pageAttr_ne_zero xnx l pm ca sh).mp ne
    simp only [Format.encoded, Format.decode, npt]
    rw [Npt.pagePm_pageAttr xnx l ca sh api, Npt.pageCa_pageAttr xnx l ca sh api,
      Npt.pageSh_pageAttr xnx l ca sh api, Npt.pagePm_pageAttr xnx 0 ca sh api,
      Npt.pageCa_pageAttr xnx 0 ca sh api, Npt.pageSh_pageAttr xnx 0 ca sh api]
  attr_zero l m pm ca sh zero := by
    have none : ¬ pm.api = true := fun h => (Npt.pageAttr_ne_zero xnx l pm ca sh).mpr h zero
    simp [npt, Npt.pageAttr, none]
  attr_none l ca sh := rfl
  attr_read l ca sh := (Npt.pageAttr_ne_zero xnx l { r := true } ca sh).mpr rfl
  ptab_table l hl := by simp [npt, hl]
  ptab_large l := by simp [npt]
  root_table := by simp [npt]
  root_large := by simp [npt]
  table_zero e := by simp [npt]
  table_not_large l e hl h := by
    have top : l ≠ 3 := hl
    simp [npt, top] at h ⊢; simp [h]

/-- **Every entry format of the repository is lawful.** -/
theorem Fmt.lawful : ∀ fmt : Fmt, fmt.format.Lawful
  | .hptX86 => hptX86_lawful
  | .ept mbec => ept_lawful mbec
  | .dpt => dpt_lawful
  | .hptArm => hptArm_lawful
  | .npt xnx => npt_lawful xnx

/-- Memory attributes that read back once read back with any permissions. -/
theorem Fmt.memattr_kept (fmt : Fmt) {pm pm' : Permissions} {ca : Cacheability} {sh : Shareability}
    (stable : fmt.format.Stable pm ca sh) (ne : fmt.format.pageAttr 0 pm' ca sh ≠ 0#64) :
    fmt.format.pageCa 0 (fmt.format.pageAttr 0 pm' ca sh) = ca ∧
      fmt.format.pageSh (fmt.format.pageAttr 0 pm' ca sh) = sh := by
  obtain ⟨ne0, -, hca, hsh⟩ := stable 0 fmt.lawful.lev_pos
  cases fmt with
  | hptX86 => exact ⟨HptX86.pageCa_pageAttr 0 ca sh ((HptX86.pageAttr_ne_zero 0 pm' ca sh).mp ne), hsh⟩
  | ept mbec =>
      refine ⟨Eq.trans (congrArg Memattr.eptToCa ?_) hca, hsh⟩
      exact (Ept.pageCa_pageAttr mbec 0 ca sh ((Ept.pageAttr_ne_zero mbec 0 pm' ca sh).mp ne)).trans
        (Ept.pageCa_pageAttr mbec 0 ca sh ((Ept.pageAttr_ne_zero mbec 0 pm ca sh).mp ne0)).symm
  | dpt => exact ⟨hca, hsh⟩
  | hptArm =>
      have api := (HptArm.pageAttr_ne_zero 0 pm' ca sh).mp ne
      exact ⟨HptArm.pageCa_pageAttr 0 ca sh api, HptArm.pageSh_pageAttr 0 ca sh api⟩
  | npt xnx =>
      have api := (Npt.pageAttr_ne_zero xnx 0 pm' ca sh).mp ne
      refine ⟨Eq.trans ?_ hca, Npt.pageSh_pageAttr xnx 0 ca sh api⟩
      exact (Npt.pageCa_pageAttr xnx 0 ca sh api).trans
        (Npt.pageCa_pageAttr xnx 0 ca sh ((Npt.pageAttr_ne_zero xnx 0 pm ca sh).mp ne0)).symm

end Nova.Kernel
