/-
# Nova.Kernel.ArmRegs — the registers of a virtual CPU (aarch64)

`Exc_regs` and `Cpu_regs` of `inc/aarch64/regs.hpp` with the `Vmcb`, and the functions that
a VMM reaches through a reply: `Utcb_arch::save` and `Utcb_arch::assign_spaces` of
`src/aarch64/utcb_arch.cpp`; `set_vmm_regs` of `src/aarch64/cpu.cpp` is what a virtual CPU
begins with.

Of the mode in which a guest would be entered, `save` checks that it fits the register
width, if one of the two is transferred.
-/
import Nova.Kernel.Vmcs

namespace Nova.Kernel.Arm

open Nova.Theory.Words

set_option autoImplicit false

/-! ## Registers -/

structure El0 where
  sp : Word
  tpidr : Word
  tpidrro : Word
  deriving Inhabited

structure ExcRegs where
  gpr : Fin 31 → Word
  el0 : El0
  elr : Word
  spsr : Word
  esr : Word
  far : Word
  deriving Inhabited

structure A32 where
  spsrAbt : BitVec 32
  spsrFiq : BitVec 32
  spsrIrq : BitVec 32
  spsrUnd : BitVec 32
  dacr : BitVec 32
  ifsr : BitVec 32
  hstr : BitVec 32
  deriving Inhabited

structure El1 where
  sp : Word
  tpidr : Word
  contextidr : Word
  elr : Word
  spsr : Word
  esr : Word
  far : Word
  afsr0 : Word
  afsr1 : Word
  ttbr0 : Word
  ttbr1 : Word
  tcr : Word
  mair : Word
  amair : Word
  vbar : Word
  sctlr : Word
  mdscr : Word
  deriving Inhabited

structure Tmr where
  cntvCval : Word
  cntvCtl : Word
  cntkctl : Word
  cntvoff : Word
  deriving Inhabited

structure Gic where
  lr : Fin 16 → Word
  ap0r : Fin 4 → BitVec 32
  ap1r : Fin 4 → BitVec 32
  elrsr : BitVec 32
  vmcr : BitVec 32
  deriving Inhabited

/-- `Vmcb`, as far as `load`, `save` and `set_vmm_regs` look at it -/
structure Vmcb where
  a32 : A32
  el1 : El1
  hcr : Word
  vpidr : Word
  vmpidr : Word
  hpfar : Word
  tmr : Tmr
  gic : Gic
  deriving Inhabited

/-- `Cpu_regs`; a null pointer is 0, and only a virtual CPU has a `Vmcb`.  `res0Hcr` is that of the CPU of the
EC, on which its VMM runs as well. -/
structure CpuRegs where
  exc : ExcRegs
  vmcb : Option Vmcb
  obj : Word
  gst : Word
  hazard : BitVec 32
  res0Hcr : Word
  deriving Inhabited

/-- `Utcb_arch` -/
structure UtcbArch where
  gpr : Fin 31 → Word
  el0 : El0
  a32 : A32
  el1 : El1
  hcr : Word
  vpidr : Word
  vmpidr : Word
  elr : Word
  spsr : Word
  esr : Word
  far : Word
  hpfar : Word
  tmr : Tmr
  gic : Gic
  selGst : Word
  deriving Inhabited

/-- What the CPUs and the interrupt controller are like: `gicRegs` is `Gicc::mode == Gicc::Mode::REGS`; the features
are those of the CPU. -/
structure Host where
  gicRegs : Bool
  numLr : Nat
  numApr : Nat
  featCpu64 : Fin 2 → Word
  featDbg64 : Fin 2 → Word
  featIsa64 : Fin 3 → Word
  featMem64 : Fin 3 → Word
  featSme64 : Word
  featSve64 : Word
  featCpu32 : Fin 3 → BitVec 32
  featDbg32 : Fin 2 → BitVec 32
  featIsa32 : Fin 7 → BitVec 32
  featMem32 : Fin 6 → BitVec 32
  featMfp32 : Fin 3 → BitVec 32
  midr : Word
  mpidr : Word
  deriving Inhabited

/-! `Mtd_arch::Item` -/

namespace Item

def poison : BitVec 32 := 1#32 <<< 0
def gpr : BitVec 32 := 1#32 <<< 2
def el0Sp : BitVec 32 := 1#32 <<< 4
def el0Idr : BitVec 32 := 1#32 <<< 5
def a32Spsr : BitVec 32 := 1#32 <<< 7
def a32Dih : BitVec 32 := 1#32 <<< 8
def el1Sp : BitVec 32 := 1#32 <<< 10
def el1Idr : BitVec 32 := 1#32 <<< 11
def el1ElrSpsr : BitVec 32 := 1#32 <<< 12
def el1EsrFar : BitVec 32 := 1#32 <<< 13
def el1Afsr : BitVec 32 := 1#32 <<< 14
def el1Ttbr : BitVec 32 := 1#32 <<< 15
def el1Tcr : BitVec 32 := 1#32 <<< 16
def el1Mair : BitVec 32 := 1#32 <<< 17
def el1Vbar : BitVec 32 := 1#32 <<< 18
def el1Sctlr : BitVec 32 := 1#32 <<< 19
def el1Mdscr : BitVec 32 := 1#32 <<< 20
def el2Hcr : BitVec 32 := 1#32 <<< 23
def el2Idr : BitVec 32 := 1#32 <<< 24
def el2ElrSpsr : BitVec 32 := 1#32 <<< 25
def el2EsrFar : BitVec 32 := 1#32 <<< 26
def el2Hpfar : BitVec 32 := 1#32 <<< 27
def tmr : BitVec 32 := 1#32 <<< 29
def gic : BitVec 32 := 1#32 <<< 30
def spaces : BitVec 32 := 1#32 <<< 31

end Item

/-! ## `HCR_EL2` -/

namespace Hcr

/-- A bit, or the bits, of the register -/
def bits (l : List Nat) : Word := l.foldl (fun w i => w ||| 1#64 <<< i) 0#64

def rw : Word := 1#64 <<< 31

/-- `ATA`, `ENSCXT`, `FIEN`, `NV2`, `NV1`, `NV`, `APK`, `E2H`, `ID`, `CD`, `TGE`, `DC` -/
def hyp0 : Word := bits [56, 53, 47, 45, 43, 42, 40, 34, 33, 32, 27, 12]

/-- `TID5`, `TERR`, `TLOR`, `TSW`, `TACR`, `TIDCP`, `TSC`, `TID3`, `TID1`, `TID0`, `TWE`, `TWI`, `BSU_INNER`, `FB`, `AMO`,
`IMO`, `FMO`, `PTW`, `SWIO`, `VM` -/
def hyp1 : Word := bits [58, 36, 35, 22, 21, 20, 19, 18, 16, 15, 14, 13, 10, 9, 5, 4, 3, 2, 1, 0]

/-- `Cpu::constrain_hcr` -/
def constrain (res0 v : Word) : Word := (v ||| hyp1) &&& ~~~ (res0 ||| hyp0)

/-- Stage-2 translation and all traps are in force, as far as the CPU has them. -/
structure Constrained (res0 hcr : Word) : Prop where
  traps : hcr &&& (hyp1 &&& ~~~ res0) = hyp1 &&& ~~~ res0
  clear : hcr &&& (hyp0 ||| res0) = 0#64

theorem hyp_disjoint : hyp1 &&& hyp0 = 0#64 := by decide

theorem constrained_constrain (res0 v : Word) : Constrained res0 (constrain res0 v) := by
  unfold constrain
  have disjoint := hyp_disjoint
  refine ⟨?_, ?_⟩
  · apply BitVec.eq_of_getLsbD_eq
    intro i small
    have apart := congrArg (fun w : Word => w.getLsbD i) disjoint
    simp only [BitVec.getLsbD_and, BitVec.getLsbD_or, BitVec.getLsbD_not, BitVec.getLsbD_zero, small, decide_true,
      Bool.true_and] at apart ⊢
    revert apart
    cases v.getLsbD i <;> cases hyp1.getLsbD i <;> cases hyp0.getLsbD i <;> cases res0.getLsbD i <;> simp
  · apply BitVec.eq_of_getLsbD_eq
    intro i small
    simp only [BitVec.getLsbD_and, BitVec.getLsbD_or, BitVec.getLsbD_not, BitVec.getLsbD_zero, small, decide_true,
      Bool.true_and]
    cases v.getLsbD i <;> cases hyp1.getLsbD i <;> cases hyp0.getLsbD i <;> cases res0.getLsbD i <;> rfl

end Hcr

/-- `Exc_regs::mode` -/
def mode (spsr : Word) : Nat := (spsr &&& 0x1f#64).toNat

/-- `BIT (16) | BIT_RANGE (5, 4) | BIT (0)`: AArch32 usr, AArch64 EL1h, EL1t and EL0t -/
def modes64 : BitVec 32 := 0x10031#32

/-- `BIT (31) | BIT (27) | BIT (23) | BIT_RANGE (19, 16)`: AArch32 sys, und, abt, svc, irq, fiq and usr -/
def modes32 : BitVec 32 := 0x888f0000#32

/-- The check of `save` for a mode and a register width -/
def fits (hcr spsr : Word) : Bool :=
  (if hcr &&& Hcr.rw ≠ 0#64 then modes64 else modes32) &&& 1#32 <<< mode spsr ≠ 0#32

/-- A mode of EL0 or EL1 that exists with the register width: with `RW` set, EL0t, EL1t and EL1h of AArch64, and usr
of AArch32; with `RW` clear, the modes of AArch32 but hyp and mon -/
def LegalMode (hcr spsr : Word) : Prop :=
  if hcr &&& Hcr.rw ≠ 0#64 then mode spsr ∈ [0, 4, 5, 16] else mode spsr ∈ [16, 17, 18, 19, 23, 27, 31]

theorem mode_lt (spsr : Word) : mode spsr < 32 := by
  unfold mode
  rw [BitVec.toNat_and]
  exact Nat.lt_of_le_of_lt Nat.and_le_right (by decide)

theorem fits_iff (hcr spsr : Word) : fits hcr spsr = true ↔ LegalMode hcr spsr := by
  have all64 : ∀ i < 32, modes64 &&& 1#32 <<< i ≠ 0#32 ↔ i ∈ [0, 4, 5, 16] := by decide
  have all32 : ∀ i < 32, modes32 &&& 1#32 <<< i ≠ 0#32 ↔ i ∈ [16, 17, 18, 19, 23, 27, 31] := by decide
  unfold fits LegalMode
  rw [decide_eq_true_iff]
  split
  · exact all64 _ (mode_lt spsr)
  · exact all32 _ (mode_lt spsr)

/-! ## `save` -/

/-- An item of the message, if it is transferred -/
def saveItem {α : Type} (m : BitVec 32) (a : α) (i : BitVec 32 × (α → α)) : α := if m &&& i.1 ≠ 0#32 then i.2 a else a

/-- What all items keep -/
theorem foldl_saveItem {α β : Type} (field : α → β) {m : BitVec 32} {l : List (BitVec 32 × (α → α))}
    (keeps : ∀ i ∈ l, ∀ a, field (i.2 a) = field a) (a : α) : field (l.foldl (saveItem m) a) = field a := by
  induction l generalizing a with
  | nil => rfl
  | cons i rest ih =>
      rw [List.foldl_cons, ih fun j member => keeps j (List.mem_cons_of_mem i member)]
      unfold saveItem
      split
      · exact keeps i List.mem_cons_self a
      · rfl

section Items

variable (host : Host) (u : UtcbArch) (m : BitVec 32)

/-- The items before `EL2_ELR_SPSR` -/
def excItems : List (BitVec 32 × (ExcRegs → ExcRegs)) :=
  [(Item.gpr, fun e => { e with gpr := u.gpr }),
    (Item.el0Sp, fun e => { e with el0 := { e.el0 with sp := u.el0.sp } }),
    (Item.el0Idr, fun e => { e with el0 := { e.el0 with tpidr := u.el0.tpidr, tpidrro := u.el0.tpidrro } })]

/-- `SPSR_ALL_NZCV` -/
def nzcv : Word := 0xf0000000#64

def saveElrSpsr (vcpu : Bool) (e : ExcRegs) : ExcRegs :=
  { e with elr := u.elr, spsr := if vcpu then u.spsr else u.spsr &&& nzcv }

def saveExc (vcpu : Bool) (e : ExcRegs) : ExcRegs :=
  saveItem m ((excItems u).foldl (saveItem m) e) (Item.el2ElrSpsr, saveElrSpsr u vcpu)

/-- The items of the `Vmcb` before `EL2_HCR` -/
def frontItems : List (BitVec 32 × (Vmcb → Vmcb)) :=
  [(Item.a32Spsr, fun v => { v with a32 := { v.a32 with
      spsrAbt := u.a32.spsrAbt, spsrFiq := u.a32.spsrFiq, spsrIrq := u.a32.spsrIrq, spsrUnd := u.a32.spsrUnd } }),
    (Item.a32Dih, fun v => { v with a32 := { v.a32 with dacr := u.a32.dacr, ifsr := u.a32.ifsr, hstr := u.a32.hstr } }),
    (Item.el1Sp, fun v => { v with el1 := { v.el1 with sp := u.el1.sp } }),
    (Item.el1Idr, fun v => { v with el1 := { v.el1 with tpidr := u.el1.tpidr, contextidr := u.el1.contextidr } }),
    (Item.el1ElrSpsr, fun v => { v with el1 := { v.el1 with elr := u.el1.elr, spsr := u.el1.spsr } }),
    (Item.el1EsrFar, fun v => { v with el1 := { v.el1 with esr := u.el1.esr, far := u.el1.far } }),
    (Item.el1Afsr, fun v => { v with el1 := { v.el1 with afsr0 := u.el1.afsr0, afsr1 := u.el1.afsr1 } }),
    (Item.el1Ttbr, fun v => { v with el1 := { v.el1 with ttbr0 := u.el1.ttbr0, ttbr1 := u.el1.ttbr1 } }),
    (Item.el1Tcr, fun v => { v with el1 := { v.el1 with tcr := u.el1.tcr } }),
    (Item.el1Mair, fun v => { v with el1 := { v.el1 with mair := u.el1.mair, amair := u.el1.amair } }),
    (Item.el1Vbar, fun v => { v with el1 := { v.el1 with vbar := u.el1.vbar } }),
    (Item.el1Sctlr, fun v => { v with el1 := { v.el1 with sctlr := u.el1.sctlr } }),
    (Item.el1Mdscr, fun v => { v with el1 := { v.el1 with mdscr := u.el1.mdscr } })]

/-- A list register, as a GICv2 has it -/
def lrV2 (lr : Word) : Word :=
  (lr &&& 0xc000000000000000#64) >>> 34 ||| (lr &&& 0x3000000000000000#64) >>> 30 |||
    (lr &&& 0x00f8000000000000#64) >>> 28 ||| (lr &&& 0x000003ff00000000#64) >>> 22 ||| (lr &&& 0x3ff#64)

def saveGic (g : Gic) : Gic :=
  { g with
    lr := fun i => if i.val < host.numLr then (if host.gicRegs then u.gic.lr i else lrV2 (u.gic.lr i)) else g.lr i
    ap0r := fun i => if i.val < host.numApr then u.gic.ap0r i else g.ap0r i
    ap1r := fun i => if i.val < host.numApr then u.gic.ap1r i else g.ap1r i }

/-- The items of the `Vmcb` after `EL2_HCR` -/
def backItems : List (BitVec 32 × (Vmcb → Vmcb)) :=
  [(Item.el2Idr, fun v => { v with vpidr := u.vpidr, vmpidr := u.vmpidr }),
    (Item.tmr, fun v => { v with tmr := u.tmr }),
    (Item.gic, fun v => { v with gic := saveGic host u v.gic })]

def saveHcr (res0 : Word) (v : Vmcb) : Vmcb := { v with hcr := Hcr.constrain res0 u.hcr }

def saveVmcb (res0 : Word) (v : Vmcb) : Vmcb :=
  (backItems host u).foldl (saveItem m) (saveItem m ((frontItems u).foldl (saveItem m) v) (Item.el2Hcr, saveHcr u res0))

theorem saveExc_spsr (vcpu : Bool) (e : ExcRegs) : (saveExc u m vcpu e).spsr =
    if m &&& Item.el2ElrSpsr ≠ 0#32 then (if vcpu then u.spsr else u.spsr &&& nzcv) else e.spsr := by
  have front : ((excItems u).foldl (saveItem m) e).spsr = e.spsr := by
    refine foldl_saveItem ExcRegs.spsr ?_ e
    simp [excItems]
  unfold saveExc
  rw [saveItem]
  split
  · rfl
  · exact front

theorem saveVmcb_hcr (res0 : Word) (v : Vmcb) : (saveVmcb host u m res0 v).hcr =
    if m &&& Item.el2Hcr ≠ 0#32 then Hcr.constrain res0 u.hcr else v.hcr := by
  have front : ((frontItems u).foldl (saveItem m) v).hcr = v.hcr := by
    refine foldl_saveItem Vmcb.hcr ?_ v
    simp [frontItems]
  unfold saveVmcb
  rw [foldl_saveItem Vmcb.hcr]
  · rw [saveItem]
    split
    · rfl
    · exact front
  · simp [backItems]

end Items

namespace CpuRegs

variable (host : Host) (objects : Objects) (caps : Caps) (u : UtcbArch) (c : CpuRegs)

/-- `hazard.set` and `hazard.clr` -/
def hazardSet (h : BitVec 32) (c : CpuRegs) : CpuRegs := { c with hazard := c.hazard ||| h }

def hazardClr (h : BitVec 32) (c : CpuRegs) : CpuRegs := { c with hazard := c.hazard &&& ~~~ h }

/-- `assign_spaces` -/
def assignSpaces : Option CpuRegs :=
  let cgst := caps.lookup u.selGst
  if !cgst.validateSp objects Perm.spAssign ObjSubtype.gst then none
  else if objects.pd cgst.obj ≠ objects.pd c.obj then none
  else some ({ c with gst := cgst.obj }.hazardClr Hazard.illegal)

/-- The check at the end of `save` -/
def checkMode (m : BitVec 32) (v : Vmcb) (e : ExcRegs) : Bool :=
  if m &&& (Item.el2Hcr ||| Item.el2ElrSpsr) ≠ 0#32 then fits v.hcr e.spsr else true

/-- `Utcb_arch::save`; `ICI` invalidates a cache and `FPR` is not looked at. -/
def save (m : BitVec 32) : Bool × CpuRegs :=
  if m &&& Item.poison ≠ 0#32 then (false, c)
  else
    let e := saveExc u m c.vmcb.isSome c.exc
    match c.vmcb with
    | none => (true, { c with exc := e })
    | some v =>
        let v := saveVmcb host u m c.res0Hcr v
        let c := { c with exc := e, vmcb := some v }
        if m &&& Item.spaces ≠ 0#32 then
          match c.assignSpaces objects caps u with
          | none => (false, c)
          | some c => (checkMode m v e, c)
        else (checkMode m v e, c)

local instance : NeZero 2 := ⟨by decide⟩
local instance : NeZero 3 := ⟨by decide⟩

/-- `Cpu::set_vmm_regs` for the general registers: the features of the CPU, for the VMM to see -/
def vmmGpr (gpr : Fin 31 → Word) (i : Fin 31) : Word :=
  let pair (hi lo : BitVec 32) : Word := hi.setWidth 64 <<< 32 ||| lo.setWidth 64
  match i.val with
  | 0 => host.featCpu64 0
  | 1 => host.featCpu64 1
  | 2 => host.featDbg64 0
  | 3 => host.featDbg64 1
  | 4 => host.featIsa64 0
  | 5 => host.featIsa64 1
  | 6 => host.featIsa64 2
  | 7 => host.featMem64 0
  | 8 => host.featMem64 1
  | 9 => host.featMem64 2
  | 10 => host.featSme64
  | 11 => host.featSve64
  | 16 => pair (host.featCpu32 1) (host.featCpu32 0)
  | 17 => pair (host.featDbg32 0) (host.featCpu32 2)
  | 18 => pair (host.featIsa32 0) (host.featDbg32 1)
  | 19 => pair (host.featIsa32 2) (host.featIsa32 1)
  | 20 => pair (host.featIsa32 4) (host.featIsa32 3)
  | 21 => pair (host.featIsa32 6) (host.featIsa32 5)
  | 22 => pair (host.featMem32 1) (host.featMem32 0)
  | 23 => pair (host.featMem32 3) (host.featMem32 2)
  | 24 => pair (host.featMem32 5) (host.featMem32 4)
  | 29 => pair (host.featMfp32 1) (host.featMfp32 0)
  | 30 => pair 0#32 (host.featMfp32 2)
  | _ => gpr i

/-- `Ec_arch::set_vmm_regs`, up to its `send_msg` -/
def setVmmRegs : CpuRegs :=
  match c.vmcb with
  | none => c
  | some v =>
      { c with
        exc := { c.exc with gpr := vmmGpr host c.exc.gpr }
        vmcb := some { v with
          hcr := Hcr.constrain c.res0Hcr 0#64
          vpidr := host.midr
          vmpidr := host.mpidr
          gic := { v.gic with elrsr := 1#32 <<< host.numLr - 1#32 } } }

/-- The constructor of a virtual CPU: the registers are 0, which is EL0t of AArch64. -/
def create (obj res0 : Word) : CpuRegs :=
  { exc := ⟨fun _ => 0#64, ⟨0#64, 0#64, 0#64⟩, 0#64, 0#64, 0#64, 0#64⟩
    vmcb := some ⟨⟨0#32, 0#32, 0#32, 0#32, 0#32, 0#32, 0#32⟩,
      ⟨0#64, 0#64, 0#64, 0#64, 0#64, 0#64, 0#64, 0#64, 0#64, 0#64, 0#64, 0#64, 0#64, 0#64, 0#64, 0#64, 0#64⟩,
      0#64, 0#64, 0#64, 0#64, ⟨0#64, 0#64, 0#64, 0#64⟩, ⟨fun _ => 0#64, fun _ => 0#32, fun _ => 0#32, 0#32, 0#32⟩⟩
    obj := obj, gst := 0#64, hazard := Hazard.illegal, res0Hcr := res0 }

end CpuRegs

end Nova.Kernel.Arm
