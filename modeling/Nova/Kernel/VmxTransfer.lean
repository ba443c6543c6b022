/-
# Nova.Kernel.VmxTransfer — messages about an exception or VM exit, there and back

`Utcb_arch` of `src/x86_64/utcb_arch.cpp`: `load_vmx` writes the state of a virtual CPU
into the UTCB of its VMM, `save_vmx` (Nova.Kernel.Vmcs) takes it from there; `load_exc`
and `save_exc` do the same for the thread that raised an exception.  The mask of the
message selects the items.

A `Part` is an item that goes both ways.  It has its fields of the UTCB (`field`) and its
registers (`view`); `put` and `get` are what saving and loading make of the one and the
other, and `constrain` is what a VMM reads back for what it has written.

Nova.Kernel.StateTransfer puts the parts together, for a virtual CPU (`vmxTransfer`) and for a
thread (`excTransfer`).
-/
import Nova.Kernel.Vmcs
import Nova.Theory.Transfers
import Mathlib.Data.Fin.VecNotation
import Mathlib.Tactic.IntervalCases

namespace Nova.Kernel.Vmx

open Nova.Theory.Transfers
open Nova.Theory.Words

set_option autoImplicit false

/-! ## Loading -/

namespace Item

def qual : BitVec 32 := 1#32 <<< 6

end Item

namespace CpuRegs

/-- `Vmcs::read` of narrower types -/
def read16 (c : CpuRegs) (field : Encoding) : BitVec 16 := (c.vmcs field).setWidth 16

def read32 (c : CpuRegs) (field : Encoding) : BitVec 32 := (c.vmcs field).setWidth 32

def vmxGetGstCr4 (host : Host) (c : CpuRegs) : Word :=
  (c.vmcs .guestCr4 &&& ~~~ mskCr4 host) ||| (c.shadowCr4 &&& mskCr4 host)

/-- `Utcb_segment::set_vmx` -/
def setVmx (s : BitVec 16) (b : Word) (l a : BitVec 32) : Segment :=
  { sel := s, ar := ((a >>> 4 &&& 0x1f00#32) ||| (a &&& 0xff#32)).setWidth 16, limit := l, base := b }

/-- `ENT_GUEST_64` -/
def guest64 (c : CpuRegs) : Bool := (c.read32 .entControls).getLsbD 9

def segment (c : CpuRegs) (sel base limit ar : Encoding) : Segment :=
  setVmx (c.read16 sel) (c.vmcs base) (c.read32 limit) (c.read32 ar)

end CpuRegs

namespace UtcbArch

variable (host : Host) (c : CpuRegs) (u : UtcbArch)

def loadGpr0To7 : UtcbArch :=
  { u with
    sys := { u.sys with
      rax := c.sys.rax, rcx := c.sys.rcx, rdx := c.sys.rdx, rbx := c.sys.rbx
      rbp := c.sys.rbp, rsi := c.sys.rsi, rdi := c.sys.rdi }
    rsp := c.vmcs .guestRsp }

def loadGpr8To15 : UtcbArch :=
  { u with sys := { u.sys with
      r8 := c.sys.r8, r9 := c.sys.r9, r10 := c.sys.r10, r11 := c.sys.r11
      r12 := c.sys.r12, r13 := c.sys.r13, r14 := c.sys.r14, r15 := c.sys.r15 } }

def loadRflags : UtcbArch := { u with rfl := c.vmcs .guestRflags }

def loadRip : UtcbArch :=
  { u with rip := c.vmcs .guestRip, instLen := c.read32 .exiInstLen, instInfo := c.read32 .exiInstInfo }

def loadSta : UtcbArch := { u with intrState := c.read32 .guestIntrState, actvState := c.read32 .guestActvState }

def loadQual : UtcbArch :=
  { u with qual0 := c.vmcs .exiQualification, qual1 := c.vmcs .guestLinearAddress, qual2 := c.vmcs .guestPhysicalAddress }

/-- After `VMX_FAIL_STATE` and a recall the event is still to be injected. -/
def loadInj : UtcbArch :=
  if c.ep = 33#64 ∨ c.ep = 257#64 then
    { u with intrInfo := c.read32 .injEventIdent, intrErrc := c.read32 .injEventError }
  else
    { u with
      intrInfo := c.read32 .exiEventIdent, intrErrc := c.read32 .exiEventError
      vectInfo := c.read32 .orgEventIdent, vectErrc := c.read32 .orgEventError }

def loadCsSs : UtcbArch :=
  { u with
    cs := c.segment .guestSelCs .guestBaseCs .guestLimitCs .guestArCs
    ss := c.segment .guestSelSs .guestBaseSs .guestLimitSs .guestArSs }

def loadDsEs : UtcbArch :=
  { u with
    ds := c.segment .guestSelDs .guestBaseDs .guestLimitDs .guestArDs
    es := c.segment .guestSelEs .guestBaseEs .guestLimitEs .guestArEs }

def loadFsGs : UtcbArch :=
  { u with
    fs := c.segment .guestSelFs .guestBaseFs .guestLimitFs .guestArFs
    gs := c.segment .guestSelGs .guestBaseGs .guestLimitGs .guestArGs }

def loadTr : UtcbArch := { u with tr := c.segment .guestSelTr .guestBaseTr .guestLimitTr .guestArTr }

def loadLdtr : UtcbArch := { u with ld := c.segment .guestSelLdtr .guestBaseLdtr .guestLimitLdtr .guestArLdtr }

def loadGdtr : UtcbArch := { u with gd := CpuRegs.setVmx 0#16 (c.vmcs .guestBaseGdtr) (c.read32 .guestLimitGdtr) 0#32 }

def loadIdtr : UtcbArch := { u with id := CpuRegs.setVmx 0#16 (c.vmcs .guestBaseIdtr) (c.read32 .guestLimitIdtr) 0#32 }

def loadPdpte : UtcbArch :=
  { u with
    pdpte0 := c.vmcs .guestPdpte0, pdpte1 := c.vmcs .guestPdpte1, pdpte2 := c.vmcs .guestPdpte2, pdpte3 := c.vmcs .guestPdpte3 }

def loadCr : UtcbArch :=
  { u with cr0 := c.vmxGetGstCr0 host, cr4 := c.vmxGetGstCr4 host, cr2 := c.cr2, cr3 := c.vmcs .guestCr3 }

def loadDr : UtcbArch := { u with dr7 := c.vmcs .guestDr7 }

def loadXsave : UtcbArch := { u with xcr0 := c.xcr, xss := c.xss }

def loadSyscall : UtcbArch := { u with star := c.star, lstar := c.lstar, fmask := c.fmask }

def loadSysenter : UtcbArch :=
  { u with
    sysenterCs := (c.read32 .guestSysenterCs).setWidth 64, sysenterEsp := c.vmcs .guestSysenterEsp
    sysenterEip := c.vmcs .guestSysenterEip }

def loadPat : UtcbArch := { u with pat := c.vmcs .guestPat }

def loadEfer : UtcbArch := { u with efer := c.vmcs .guestEfer }

def loadKernelGsBase : UtcbArch := { u with kernelGsBase := c.kernelGsBase }

/-- The items of `load_vmx`.  `CTRL` and `TPR` are write-only. -/
def items : List (BitVec 32 × (UtcbArch → UtcbArch)) :=
  [(Item.gpr0To7, loadGpr0To7 c), (Item.gpr8To15, loadGpr8To15 c), (Item.rflags, loadRflags c), (Item.rip, loadRip c),
    (Item.sta, loadSta c), (Item.qual, loadQual c), (Item.inj, loadInj c), (Item.csSs, loadCsSs c), (Item.dsEs, loadDsEs c),
    (Item.fsGs, loadFsGs c), (Item.tr, loadTr c), (Item.ldtr, loadLdtr c), (Item.gdtr, loadGdtr c), (Item.idtr, loadIdtr c),
    (Item.pdpte, loadPdpte c), (Item.cr, loadCr host c), (Item.dr, loadDr c), (Item.xsave, loadXsave c),
    (Item.syscall, loadSyscall c), (Item.sysenter, loadSysenter c), (Item.pat, loadPat c), (Item.efer, loadEfer c),
    (Item.kernelGsBase, loadKernelGsBase c)]

/-- `load_vmx` -/
def loadVmx (m : BitVec 32) : UtcbArch := transfer m (items host c) u

end UtcbArch

/-! ## The items that go both ways -/

inductive Part where
  | gpr0To7 | gpr8To15 | rflags | rip | sta | csSs | dsEs | fsGs | tr | ldtr | gdtr | idtr | pdpte | cr | dr | xsave
  | syscall | sysenter | pat | efer | kernelGsBase

namespace Part

def mask : Part → BitVec 32
  | gpr0To7 => Item.gpr0To7
  | gpr8To15 => Item.gpr8To15
  | rflags => Item.rflags
  | rip => Item.rip
  | sta => Item.sta
  | csSs => Item.csSs
  | dsEs => Item.dsEs
  | fsGs => Item.fsGs
  | tr => Item.tr
  | ldtr => Item.ldtr
  | gdtr => Item.gdtr
  | idtr => Item.idtr
  | pdpte => Item.pdpte
  | cr => Item.cr
  | dr => Item.dr
  | xsave => Item.xsave
  | syscall => Item.syscall
  | sysenter => Item.sysenter
  | pat => Item.pat
  | efer => Item.efer
  | kernelGsBase => Item.kernelGsBase

/-- A segment register in the VMCS: selector, base, limit and access rights -/
abbrev Fields : Type := BitVec 16 × Word × BitVec 32 × BitVec 32

/-- The values of an item in the UTCB -/
@[reducible] def Data : Part → Type
  | gpr0To7 | gpr8To15 => Fin 8 → Word
  | rflags | rip | dr | pat | efer | kernelGsBase => Word
  | sta => BitVec 32 × BitVec 32
  | csSs | dsEs | fsGs => Segment × Segment
  | tr | ldtr | gdtr | idtr => Segment
  | pdpte | cr => Word × Word × Word × Word
  | xsave => Word × Word
  | syscall | sysenter => Word × Word × Word

/-- … and in the registers, where each field of the VMCS has its own width.  A control register has its field,
the read shadow and the copy of that. -/
@[reducible] def State : Part → Type
  | gpr0To7 | gpr8To15 => Fin 8 → Word
  | rflags | rip | dr | pat | kernelGsBase => Word
  | sta => BitVec 32 × BitVec 32
  | gdtr | idtr => Word × BitVec 32
  | xsave => Word × Word
  | csSs | dsEs | fsGs => Fields × Fields
  | tr | ldtr => Fields
  | pdpte => Word × Word × Word × Word
  | cr => (Word × Word × Word) × (Word × Word × Word) × Word × Word
  | syscall => Word × Word × Word
  | sysenter => BitVec 32 × Word × Word
  | efer => Word × Bool

def field : (p : Part) → UtcbArch → p.Data
  | gpr0To7, u => ![u.sys.rax, u.sys.rcx, u.sys.rdx, u.sys.rbx, u.rsp, u.sys.rbp, u.sys.rsi, u.sys.rdi]
  | gpr8To15, u => ![u.sys.r8, u.sys.r9, u.sys.r10, u.sys.r11, u.sys.r12, u.sys.r13, u.sys.r14, u.sys.r15]
  | rflags, u => u.rfl
  | rip, u => u.rip
  | sta, u => (u.intrState, u.actvState)
  | csSs, u => (u.cs, u.ss)
  | dsEs, u => (u.ds, u.es)
  | fsGs, u => (u.fs, u.gs)
  | tr, u => u.tr
  | ldtr, u => u.ld
  | gdtr, u => u.gd
  | idtr, u => u.id
  | pdpte, u => (u.pdpte0, u.pdpte1, u.pdpte2, u.pdpte3)
  | cr, u => (u.cr0, u.cr2, u.cr3, u.cr4)
  | dr, u => u.dr7
  | xsave, u => (u.xcr0, u.xss)
  | syscall, u => (u.star, u.lstar, u.fmask)
  | sysenter, u => (u.sysenterCs, u.sysenterEsp, u.sysenterEip)
  | pat, u => u.pat
  | efer, u => u.efer
  | kernelGsBase, u => u.kernelGsBase

/-- The fields of a segment register -/
def fields (c : CpuRegs) (sel base limit ar : Encoding) : Fields := (c.read16 sel, c.vmcs base, c.read32 limit, c.read32 ar)

def view : (p : Part) → CpuRegs → p.State
  | gpr0To7, c => ![c.sys.rax, c.sys.rcx, c.sys.rdx, c.sys.rbx, c.vmcs .guestRsp, c.sys.rbp, c.sys.rsi, c.sys.rdi]
  | gpr8To15, c => ![c.sys.r8, c.sys.r9, c.sys.r10, c.sys.r11, c.sys.r12, c.sys.r13, c.sys.r14, c.sys.r15]
  | rflags, c => c.vmcs .guestRflags
  | rip, c => c.vmcs .guestRip
  | sta, c => (c.read32 .guestIntrState, c.read32 .guestActvState)
  | csSs, c => (fields c .guestSelCs .guestBaseCs .guestLimitCs .guestArCs, fields c .guestSelSs .guestBaseSs .guestLimitSs .guestArSs)
  | dsEs, c => (fields c .guestSelDs .guestBaseDs .guestLimitDs .guestArDs, fields c .guestSelEs .guestBaseEs .guestLimitEs .guestArEs)
  | fsGs, c => (fields c .guestSelFs .guestBaseFs .guestLimitFs .guestArFs, fields c .guestSelGs .guestBaseGs .guestLimitGs .guestArGs)
  | tr, c => fields c .guestSelTr .guestBaseTr .guestLimitTr .guestArTr
  | ldtr, c => fields c .guestSelLdtr .guestBaseLdtr .guestLimitLdtr .guestArLdtr
  | gdtr, c => (c.vmcs .guestBaseGdtr, c.read32 .guestLimitGdtr)
  | idtr, c => (c.vmcs .guestBaseIdtr, c.read32 .guestLimitIdtr)
  | pdpte, c => (c.vmcs .guestPdpte0, c.vmcs .guestPdpte1, c.vmcs .guestPdpte2, c.vmcs .guestPdpte3)
  | cr, c =>
      ((c.vmcs .guestCr0, c.vmcs .cr0ReadShadow, c.shadowCr0), (c.vmcs .guestCr4, c.vmcs .cr4ReadShadow, c.shadowCr4),
        c.cr2, c.vmcs .guestCr3)
  | dr, c => c.vmcs .guestDr7
  | xsave, c => (c.xcr, c.xss)
  | syscall, c => (c.star, c.lstar, c.fmask)
  | sysenter, c => (c.read32 .guestSysenterCs, c.vmcs .guestSysenterEsp, c.vmcs .guestSysenterEip)
  | pat, c => c.vmcs .guestPat
  | efer, c => (c.vmcs .guestEfer, c.guest64)
  | kernelGsBase, c => c.kernelGsBase

/-- What saving makes of a segment register … -/
def putFields (s : Segment) : Fields := (s.sel, s.base, s.limit, CpuRegs.accessRights s.ar)

/-- … and what loading makes of it -/
def getFields (f : Fields) : Segment := CpuRegs.setVmx f.1 f.2.1 f.2.2.1 f.2.2.2

/-- CR0 and CR4 differ in the bits that the hypervisor owns (`msk`) and in those it sets (`set`). -/
def putCr (msk set v : Word) : Word × Word × Word := ((v &&& ~~~ msk) ||| set, v, v)

def getCr (msk : Word) (r : Word × Word × Word) : Word := (r.1 &&& ~~~ msk) ||| (r.2.2 &&& msk)

/-- EFER and whether the guest runs in 64-bit mode (`ENT_GUEST_64`) -/
def eferState (v : Word) : Word × Bool := (v, v &&& CpuRegs.eferLma ≠ 0#64)

variable (host : Host)

/-- `msk_cr0` and `set_cr0` for the given `fpu_on` -/
def setCr0 (on : Bool) : Word := host.fixCr0Set ||| if on then 0#64 else cr0Ts

def mskCr0 (on : Bool) : Word := host.fixCr0Clr ||| setCr0 host on

def put : (p : Part) → Bool → p.Data → p.State
  | gpr0To7, _, d => d
  | gpr8To15, _, d => d
  | rflags, _, d => d
  | rip, _, d => d
  | sta, _, d => d
  | csSs, _, d => (putFields d.1, putFields d.2)
  | dsEs, _, d => (putFields d.1, putFields d.2)
  | fsGs, _, d => (putFields d.1, putFields d.2)
  | tr, _, d => putFields d
  | ldtr, _, d => putFields d
  | gdtr, _, d => (d.base, d.limit)
  | idtr, _, d => (d.base, d.limit)
  | pdpte, _, d => d
  | cr, on, d =>
      (putCr (mskCr0 host on) (setCr0 host on) d.1, putCr (CpuRegs.mskCr4 host) (CpuRegs.setCr4 host) d.2.2.2, d.2.1, d.2.2.1)
  | dr, _, d => d
  | xsave, _, d => (CpuRegs.constrainXcr host d.1, CpuRegs.constrainXss host d.2)
  | syscall, _, d => (CpuRegs.constrainStar d.1, CpuRegs.constrainCanon d.2.1, CpuRegs.constrainFmask d.2.2)
  | sysenter, _, d => (d.1.setWidth 32, d.2.1, d.2.2)
  | pat, _, d => d
  | efer, _, d => eferState d
  | kernelGsBase, _, d => CpuRegs.constrainCanon d

def get : (p : Part) → Bool → p.State → p.Data
  | gpr0To7, _, s => s
  | gpr8To15, _, s => s
  | rflags, _, s => s
  | rip, _, s => s
  | sta, _, s => s
  | csSs, _, s => (getFields s.1, getFields s.2)
  | dsEs, _, s => (getFields s.1, getFields s.2)
  | fsGs, _, s => (getFields s.1, getFields s.2)
  | tr, _, s => getFields s
  | ldtr, _, s => getFields s
  | gdtr, _, s => CpuRegs.setVmx 0#16 s.1 s.2 0#32
  | idtr, _, s => CpuRegs.setVmx 0#16 s.1 s.2 0#32
  | pdpte, _, s => s
  | cr, on, s => (getCr (mskCr0 host on) s.1, s.2.2.1, s.2.2.2, getCr (CpuRegs.mskCr4 host) s.2.1)
  | dr, _, s => s
  | xsave, _, s => s
  | syscall, _, s => s
  | sysenter, _, s => (s.1.setWidth 64, s.2.1, s.2.2)
  | pat, _, s => s
  | efer, _, s => s.1
  | kernelGsBase, _, s => s

/-- The access rights that the VMCS has a place for -/
def constrainSegment (s : Segment) : Segment := { s with ar := s.ar &&& 0x1fff#16 }

/-- GDTR and IDTR have neither selector nor access rights. -/
def constrainTable (s : Segment) : Segment := { s with sel := 0#16, ar := 0#16 }

/-- `SYSENTER_CS` has 32 bits. -/
def constrainCs (v : Word) : Word := v &&& 0xffffffff#64

def constrain : (p : Part) → p.Data → p.Data
  | gpr0To7, d => d
  | gpr8To15, d => d
  | rflags, d => d
  | rip, d => d
  | sta, d => d
  | csSs, d => (constrainSegment d.1, constrainSegment d.2)
  | dsEs, d => (constrainSegment d.1, constrainSegment d.2)
  | fsGs, d => (constrainSegment d.1, constrainSegment d.2)
  | tr, d => constrainSegment d
  | ldtr, d => constrainSegment d
  | gdtr, d => constrainTable d
  | idtr, d => constrainTable d
  | pdpte, d => d
  | cr, d => d
  | dr, d => d
  | xsave, d => (CpuRegs.constrainXcr host d.1, CpuRegs.constrainXss host d.2)
  | syscall, d => (CpuRegs.constrainStar d.1, CpuRegs.constrainCanon d.2.1, CpuRegs.constrainFmask d.2.2)
  | sysenter, d => (constrainCs d.1, d.2.1, d.2.2)
  | pat, d => d
  | efer, d => d
  | kernelGsBase, d => CpuRegs.constrainCanon d

/-! ## What comes back -/

theorem access_back (ar : BitVec 16) :
    ((CpuRegs.accessRights ar >>> 4 &&& 0x1f00#32) ||| (CpuRegs.accessRights ar &&& 0xff#32)).setWidth 16 = ar &&& 0x1fff#16 := by
  apply BitVec.eq_of_getLsbD_eq
  intro i small
  unfold CpuRegs.accessRights
  interval_cases i <;> simp

theorem access_again (ar : BitVec 16) : CpuRegs.accessRights (ar &&& 0x1fff#16) = CpuRegs.accessRights ar := by
  apply BitVec.eq_of_getLsbD_eq
  intro i small
  unfold CpuRegs.accessRights
  interval_cases i <;> simp

theorem getFields_putFields (s : Segment) : getFields (putFields s) = constrainSegment s := by
  unfold getFields putFields CpuRegs.setVmx constrainSegment
  dsimp only
  rw [access_back]

theorem putFields_constrain (s : Segment) : putFields (constrainSegment s) = putFields s := by
  unfold putFields constrainSegment
  dsimp only
  rw [access_again]

theorem getCr_putCr (clr set v : Word) : getCr (clr ||| set) (putCr (clr ||| set) set v) = v := by
  apply BitVec.eq_of_getLsbD_eq
  intro i small
  simp only [getCr, putCr, BitVec.getLsbD_or, BitVec.getLsbD_and, BitVec.getLsbD_not, small, decide_true, Bool.true_and]
  cases v.getLsbD i <;> cases clr.getLsbD i <;> cases set.getLsbD i <;> rfl

theorem cs_back (v : Word) : (v.setWidth 32).setWidth 64 = constrainCs v := by
  apply BitVec.eq_of_getLsbD_eq
  intro i small
  unfold constrainCs
  rw [BitVec.getLsbD_setWidth, BitVec.getLsbD_setWidth, BitVec.getLsbD_and,
    show (0xffffffff#64 : Word) = lowMask 32 by decide, getLsbD_lowMask (by decide)]
  simp [small, Bool.and_comm]

theorem cs_again (v : Word) : (constrainCs v).setWidth 32 = v.setWidth 32 := by
  rw [← cs_back, BitVec.setWidth_setWidth_of_le _ (by decide), BitVec.setWidth_setWidth_of_le _ (by decide)]

theorem canon_again (v : Word) : CpuRegs.constrainCanon (CpuRegs.constrainCanon v) = CpuRegs.constrainCanon v := by
  unfold CpuRegs.constrainCanon
  congr 1
  apply BitVec.eq_of_getLsbD_eq
  intro i small
  simp [BitVec.getLsbD_signExtend, small]
  omega

/-- A bit of AVX-512 is selected. -/
def avx512 (v : Word) : Bool := v.getLsbD 5 || v.getLsbD 6 || v.getLsbD 7

theorem avx512_iff (v : Word) : v &&& 0xe0#64 ≠ 0#64 ↔ avx512 v = true := by
  rw [show (0xe0#64 : Word) = 1#64 <<< 5 ||| 1#64 <<< 6 ||| 1#64 <<< 7 by decide, BitVec.and_or_distrib_left,
    BitVec.and_or_distrib_left, Ne, BitVec.or_eq_zero_iff, BitVec.or_eq_zero_iff, not_and_or, not_and_or, ← Ne, ← Ne, ← Ne,
    and_bit_ne_zero v (by decide), and_bit_ne_zero v (by decide), and_bit_ne_zero v (by decide)]
  simp [avx512]

theorem avx512_bits : ∀ i < 64, (0xe4#64 : Word).getLsbD i = decide (i = 2 ∨ i = 5 ∨ i = 6 ∨ i = 7) := by decide

theorem avx_iff (v : Word) : v &&& 4#64 ≠ 0#64 ↔ v.getLsbD 2 = true := and_bit_ne_zero v (i := 2) (by decide)

theorem constrainXcr_bit (host : Host) (v : Word) {i : Nat} (small : i < 64) :
    (CpuRegs.constrainXcr host v).getLsbD i =
      (host.xcr.getLsbD i && (v.getLsbD i || decide (i = 0) || (avx512 v && decide (i = 2 ∨ i = 5 ∨ i = 6 ∨ i = 7)) ||
        ((avx512 v || v.getLsbD 2) && decide (i = 1)))) := by
  have one : (1#64 : Word).getLsbD i = decide (i = 0) := by rw [BitVec.getLsbD_one]; simp
  have two : (2#64 : Word).getLsbD i = decide (i = 1) := by
    rw [show (2#64 : Word) = BitVec.twoPow 64 1 by decide, BitVec.getLsbD_twoPow]
    simp [eq_comm]
  unfold CpuRegs.constrainXcr
  simp only [avx512_iff, avx_iff, BitVec.getLsbD_and]
  congr 1
  cases wide : avx512 v with
  | true =>
      have avx : (v ||| 0xe4#64).getLsbD 2 = true := by simp
      simp only [avx, if_true, BitVec.getLsbD_or, avx512_bits i small, one, two, Bool.true_or, Bool.true_and]
      cases v.getLsbD i <;> simp [Bool.or_comm, Bool.or_left_comm]
  | false =>
      cases avx : v.getLsbD 2 <;> simp only [avx, if_true, if_false, Bool.false_eq_true, BitVec.getLsbD_or, one, two] <;>
        simp [Bool.or_comm, Bool.or_left_comm]

theorem xcr_again (host : Host) (v : Word) :
    CpuRegs.constrainXcr host (CpuRegs.constrainXcr host v) = CpuRegs.constrainXcr host v := by
  have wide : avx512 (CpuRegs.constrainXcr host v) = true → avx512 v = true := by
    unfold avx512
    simp only [constrainXcr_bit host v (i := 5) (by decide), constrainXcr_bit host v (i := 6) (by decide),
      constrainXcr_bit host v (i := 7) (by decide), avx512]
    grind
  have avx : (CpuRegs.constrainXcr host v).getLsbD 2 = true → (avx512 v || v.getLsbD 2) = true := by
    rw [constrainXcr_bit host v (by decide)]
    grind
  apply BitVec.eq_of_getLsbD_eq
  intro i small
  rw [constrainXcr_bit host _ small, constrainXcr_bit host v small]
  grind

theorem xss_again (v : Word) : CpuRegs.constrainXss host (CpuRegs.constrainXss host v) = CpuRegs.constrainXss host v := by
  unfold CpuRegs.constrainXss
  rw [← BitVec.and_assoc, BitVec.and_self]

theorem star_again (v : Word) : CpuRegs.constrainStar (CpuRegs.constrainStar v) = CpuRegs.constrainStar v := by
  unfold CpuRegs.constrainStar
  rw [BitVec.and_assoc, BitVec.and_self]

theorem fmask_again (v : Word) : CpuRegs.constrainFmask (CpuRegs.constrainFmask v) = CpuRegs.constrainFmask v := by
  unfold CpuRegs.constrainFmask
  rw [BitVec.and_assoc, BitVec.and_self]

theorem get_put (p : Part) (on : Bool) (d : p.Data) : p.get host on (p.put host on d) = p.constrain host d := by
  cases p with
  | csSs | dsEs | fsGs => exact Prod.ext (getFields_putFields d.1) (getFields_putFields d.2)
  | tr | ldtr => exact getFields_putFields d
  | cr =>
      refine Prod.ext (getCr_putCr _ _ d.1) (Prod.ext rfl (Prod.ext rfl ?_))
      exact getCr_putCr _ _ d.2.2.2
  | sysenter => exact Prod.ext (cs_back d.1) rfl
  | _ => rfl

theorem put_constrain (p : Part) (on : Bool) (d : p.Data) : p.put host on (p.constrain host d) = p.put host on d := by
  cases p with
  | csSs | dsEs | fsGs => exact Prod.ext (putFields_constrain d.1) (putFields_constrain d.2)
  | tr | ldtr => exact putFields_constrain d
  | xsave => exact Prod.ext (xcr_again host d.1) (xss_again host d.2)
  | syscall => exact Prod.ext (star_again d.1) (Prod.ext (canon_again d.2.1) (fmask_again d.2.2))
  | sysenter => exact Prod.ext (cs_again d.1) rfl
  | kernelGsBase => exact canon_again d
  | _ => rfl

/-! ## Each item has its part to itself -/

/-- The item that a field of the VMCS belongs to -/
def owner : Encoding → Option Part
  | .guestRsp => some gpr0To7
  | .guestRflags => some rflags
  | .guestRip => some rip
  | .guestIntrState | .guestActvState => some sta
  | .guestSelCs | .guestBaseCs | .guestLimitCs | .guestArCs | .guestSelSs | .guestBaseSs | .guestLimitSs | .guestArSs => some csSs
  | .guestSelDs | .guestBaseDs | .guestLimitDs | .guestArDs | .guestSelEs | .guestBaseEs | .guestLimitEs | .guestArEs => some dsEs
  | .guestSelFs | .guestBaseFs | .guestLimitFs | .guestArFs | .guestSelGs | .guestBaseGs | .guestLimitGs | .guestArGs => some fsGs
  | .guestSelTr | .guestBaseTr | .guestLimitTr | .guestArTr => some tr
  | .guestSelLdtr | .guestBaseLdtr | .guestLimitLdtr | .guestArLdtr => some ldtr
  | .guestBaseGdtr | .guestLimitGdtr => some gdtr
  | .guestBaseIdtr | .guestLimitIdtr => some idtr
  | .guestPdpte0 | .guestPdpte1 | .guestPdpte2 | .guestPdpte3 => some pdpte
  | .guestCr0 | .cr0ReadShadow | .guestCr4 | .cr4ReadShadow | .guestCr3 => some cr
  | .guestDr7 => some dr
  | .guestSysenterCs | .guestSysenterEsp | .guestSysenterEip => some sysenter
  | .guestPat => some pat
  | .guestEfer | .entControls => some efer
  | _ => none

theorem view_write (p : Part) (c : CpuRegs) {field : Encoding} (v : Word) (other : owner field ≠ some p) :
    p.view (c.write field v) = p.view c := by
  have apart : ∀ e, owner e = some p → e ≠ field := fun e own same => other (same ▸ own)
  cases p
  all_goals
    simp (disch := exact apart _ rfl) only [view, fields, CpuRegs.read16, CpuRegs.read32, CpuRegs.guest64, CpuRegs.write,
      Function.update_of_ne]

theorem view_write32 (p : Part) (c : CpuRegs) {field : Encoding} (v : BitVec 32) (other : owner field ≠ some p) :
    p.view (c.write32 field v) = p.view c := view_write p c _ other

/-- What `save_vmx` does about an item -/
def save (u : UtcbArch) : Part → CpuRegs → CpuRegs
  | gpr0To7 => CpuRegs.saveGpr0To7 u
  | gpr8To15 => CpuRegs.saveGpr8To15 u
  | rflags => CpuRegs.saveRflags u
  | rip => CpuRegs.saveRip u
  | sta => CpuRegs.saveSta u
  | csSs => CpuRegs.saveCsSs u
  | dsEs => CpuRegs.saveDsEs u
  | fsGs => CpuRegs.saveFsGs u
  | tr => CpuRegs.saveTr u
  | ldtr => CpuRegs.saveLdtr u
  | gdtr => CpuRegs.saveGdtr u
  | idtr => CpuRegs.saveIdtr u
  | pdpte => CpuRegs.savePdpte u
  | cr => CpuRegs.saveCr host u
  | dr => CpuRegs.saveDr u
  | xsave => CpuRegs.saveXsave host u
  | syscall => CpuRegs.saveSyscall u
  | sysenter => CpuRegs.saveSysenter u
  | pat => CpuRegs.savePat u
  | efer => CpuRegs.saveEfer u
  | kernelGsBase => CpuRegs.saveKernelGsBase u

variable {host} {u : UtcbArch} {c : CpuRegs}

theorem view_save_other {p q : Part} (other : q ≠ p) : p.view (q.save host u c) = p.view c := by
  have apart : ∀ e, owner e = some q → owner e ≠ some p := fun e own same => other (Option.some.inj (own.symm.trans same))
  have free : ∀ e, owner e = none → owner e ≠ some p := fun e own same => nomatch own.symm.trans same
  cases q with
  | gpr0To7 =>
      change p.view (CpuRegs.write _ .guestRsp u.rsp) = _
      rw [view_write p _ _ (apart _ rfl)]
      cases p <;> first | rfl | exact absurd rfl other
  | cr =>
      change p.view (CpuRegs.write _ .guestCr3 u.cr3) = _
      rw [view_write p _ _ (apart _ rfl)]
      cases p <;> first | rfl | exact absurd rfl other
  | gpr8To15 | xsave | syscall | kernelGsBase => cases p <;> first | rfl | exact absurd rfl other
  | _ =>
      simp (disch := first | exact apart _ rfl | exact free _ rfl) only [save, CpuRegs.saveRflags, CpuRegs.saveRip,
        CpuRegs.saveSta, CpuRegs.saveSegment, CpuRegs.saveCsSs, CpuRegs.saveDsEs, CpuRegs.saveFsGs, CpuRegs.saveTr,
        CpuRegs.saveLdtr, CpuRegs.saveGdtr, CpuRegs.saveIdtr, CpuRegs.savePdpte, CpuRegs.saveDr, CpuRegs.saveSysenter,
        CpuRegs.savePat, CpuRegs.saveEfer, view_write, view_write32]

theorem fields_saveSegment (c : CpuRegs) {sel base limit ar : Encoding} (s : Segment)
    (apart : [sel, base, limit, ar].Nodup) :
    fields (c.saveSegment sel base limit ar s) sel base limit ar = putFields s := by
  simp only [List.nodup_cons, List.mem_cons, List.not_mem_nil, or_false, not_or] at apart
  obtain ⟨⟨sb, sl, sa⟩, ⟨bl, ba⟩, la, -⟩ := apart
  simp [fields, CpuRegs.saveSegment, CpuRegs.read16, CpuRegs.read32, CpuRegs.write, CpuRegs.write32, putFields,
    Function.update_of_ne, sb, sl, sa, bl, ba, la]

/-- Writing other fields leaves a segment register alone. -/
theorem fields_saveSegment_other (c : CpuRegs) {sel base limit ar sel' base' limit' ar' : Encoding} (s : Segment)
    (apart : ∀ e ∈ [sel, base, limit, ar], e ∉ [sel', base', limit', ar']) :
    fields (c.saveSegment sel' base' limit' ar' s) sel base limit ar = fields c sel base limit ar := by
  simp only [List.mem_cons, List.not_mem_nil, or_false, not_or] at apart
  simp [fields, CpuRegs.saveSegment, CpuRegs.read16, CpuRegs.read32, CpuRegs.write, CpuRegs.write32, Function.update_of_ne, apart]

theorem guest64_saveEfer (c : CpuRegs) (u : UtcbArch) : (CpuRegs.saveEfer u c).guest64 = (eferState u.efer).2 := by
  unfold CpuRegs.saveEfer eferState CpuRegs.guest64
  by_cases lma : u.efer &&& CpuRegs.eferLma = 0#64
  · simp [lma, CpuRegs.read32, CpuRegs.write32, CpuRegs.write, CpuRegs.entGuest64]
  · simp [lma, CpuRegs.read32, CpuRegs.write32, CpuRegs.write, CpuRegs.entGuest64]

theorem view_save_own (p : Part) (u : UtcbArch) {on : Bool} (same : c.fpuOn = on) :
    p.view (p.save host u c) = p.put host on (p.field u) := by
  subst same
  cases p with
  | csSs | dsEs | fsGs =>
      refine Prod.ext ?_ (fields_saveSegment _ _ (by decide))
      exact (fields_saveSegment_other _ _ (by decide)).trans (fields_saveSegment _ _ (by decide))
  | tr | ldtr => exact fields_saveSegment _ _ (by decide)
  | sta | gdtr | idtr =>
      simp [view, put, field, save, CpuRegs.saveSta, CpuRegs.saveGdtr, CpuRegs.saveIdtr, CpuRegs.read32, CpuRegs.write32,
        CpuRegs.write, Function.update_of_ne]
  | sysenter =>
      simp [view, put, field, save, CpuRegs.saveSysenter, CpuRegs.read32, CpuRegs.write, Function.update_of_ne]
  | efer => exact Prod.ext rfl (guest64_saveEfer c u)
  | _ => rfl

theorem mask_ne {p q : Part} (other : q ≠ p) : q.mask ≠ p.mask := by
  cases p <;> cases q <;> first | decide | exact absurd rfl other

/-- An item of `save_vmx` goes both ways, or it has to do with no item that does. -/
theorem items_part : ∀ i ∈ CpuRegs.items host u, (∃ q : Part, i = (q.mask, q.save host u)) ∨
    ∀ p : Part, i.1 ≠ p.mask ∧ ∀ c, p.view (i.2 c) = p.view c := by
  have free : ∀ e, owner e = none → ∀ p, owner e ≠ some p := fun e own p same => nomatch own.symm.trans same
  simp only [CpuRegs.items, List.forall_mem_cons]
  refine ⟨.inl ⟨gpr0To7, rfl⟩, .inl ⟨gpr8To15, rfl⟩, .inl ⟨rflags, rfl⟩, .inl ⟨rip, rfl⟩, .inl ⟨sta, rfl⟩, .inr fun p => ⟨?_, ?_⟩,
    .inr fun p => ⟨?_, ?_⟩, .inr fun p => ⟨?_, ?_⟩, .inl ⟨csSs, rfl⟩, .inl ⟨dsEs, rfl⟩, .inl ⟨fsGs, rfl⟩, .inl ⟨tr, rfl⟩,
    .inl ⟨ldtr, rfl⟩, .inl ⟨gdtr, rfl⟩, .inl ⟨idtr, rfl⟩, .inl ⟨pdpte, rfl⟩, .inl ⟨cr, rfl⟩, .inl ⟨dr, rfl⟩, .inl ⟨xsave, rfl⟩,
    .inl ⟨syscall, rfl⟩, .inl ⟨sysenter, rfl⟩, .inl ⟨pat, rfl⟩, .inl ⟨efer, rfl⟩, .inl ⟨kernelGsBase, rfl⟩, nofun⟩
  · cases p <;> decide
  · intro c
    simp (disch := exact free _ rfl p) only [CpuRegs.saveCtrl, CpuRegs.vmxSetMskCr0, CpuRegs.vmxSetMskCr4, CpuRegs.vmxSetBmpExc,
      CpuRegs.vmxSetCpuPri, CpuRegs.vmxSetCpuSec, CpuRegs.vmxSetCpuTer, view_write, view_write32]
    cases p <;> rfl
  · cases p <;> decide
  · intro c
    simp (disch := exact free _ rfl p) only [CpuRegs.saveTpr, view_write32]
  · cases p <;> decide
  · intro c
    simp (disch := exact free _ rfl p) only [CpuRegs.saveInj, CpuRegs.vmxSetCpuPri, view_write32]

theorem item_mem (p : Part) : (p.mask, p.save host u) ∈ CpuRegs.items host u := by
  cases p <;> simp [CpuRegs.items, mask, save]

theorem save_own (p : Part) (u : UtcbArch) (on : Bool) :
    Owns (CpuRegs.items host u) p.view p.mask (fun c => c.fpuOn = on) (p.put host on (p.field u)) := by
  intro i member
  rcases items_part i member with ⟨q, rfl⟩ | outside
  · by_cases same : q = p
    · subst same
      exact .inl ⟨rfl, fun c => view_save_own q u⟩
    · exact .inr ⟨mask_ne same, fun c => view_save_other same⟩
  · exact .inr (outside p)

theorem field_loadInj (p : Part) (c : CpuRegs) (u : UtcbArch) : p.field (u.loadInj c) = p.field u := by
  unfold UtcbArch.loadInj
  split
  · cases p <;> rfl
  · cases p <;> rfl

theorem load_own (p : Part) (c : CpuRegs) :
    Owns (UtcbArch.items host c) p.field p.mask (fun _ => True) (p.get host c.fpuOn (p.view c)) := by
  unfold Owns
  simp only [UtcbArch.items, List.forall_mem_cons]
  cases p
  all_goals
    refine ⟨?_, ?_, ?_, ?_, ?_, ?_, ?_, ?_, ?_, ?_, ?_, ?_, ?_, ?_, ?_, ?_, ?_, ?_, ?_, ?_, ?_, ?_, ?_, List.forall_mem_nil _⟩
  all_goals
    first
    | exact .inr ⟨by decide, fun _ => rfl⟩
    | exact .inl ⟨rfl, fun _ _ => rfl⟩
    | exact .inr ⟨by decide, field_loadInj _ c⟩

theorem load_item (p : Part) (c : CpuRegs) : ∃ i ∈ UtcbArch.items host c, i.1 = p.mask := by
  cases p <;> simp [UtcbArch.items, mask]

/-- The messages of a virtual CPU -/
def exchange (host : Host) : Exchange 32 CpuRegs UtcbArch Part Bool where
  Data := Data
  State := State
  env := CpuRegs.fpuOn
  saves := CpuRegs.items host
  loads := UtcbArch.items host
  mask := mask
  field := field
  view := view
  put := put host
  get := get host
  constrain := constrain host
  save_env := fun _ => CpuRegs.items_fpuOn
  save_own := save_own
  save_item := fun p _ => ⟨_, item_mem p, rfl⟩
  load_own := load_own
  load_item := load_item
  get_put := get_put host
  put_constrain := put_constrain host

end Part

end Nova.Kernel.Vmx
