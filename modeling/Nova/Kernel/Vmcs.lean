/-
# Nova.Kernel.Vmcs — the registers of a virtual CPU (VMX)

`Cpu_regs` of `inc/x86_64/regs.hpp` with the VMCS, and the two functions through which a
VMM can change them: the reply to an event runs `Utcb_arch::save_vmx`
(`src/x86_64/utcb_arch.cpp`), and a change of the FPU owner runs `Cpu_regs::fpu_ctrl`.

`save_vmx` makes the VMCS current before it writes any field, as `fpu_ctrl` does; a write
is therefore a write to the VMCS of these registers.  The items of a message are a table
in the order in which the source looks at them, so that what none of them touches is
proved by looking at each of them once (`saveItems_seat`, `saveItems_guise`).
-/
import Nova.Kernel.Capability

namespace Nova.Kernel

open Nova.Theory.Words

set_option autoImplicit false

/-- What the kernel objects tell about themselves: `Kobject::type`, `Kobject::subtype`, `get_pd` and
`get_phys` of a space, none of which ever changes. -/
structure Objects where
  type : Word → ObjType
  subtype : Word → ObjSubtype
  pd : Word → Word
  phys : Word → Word

/-- `validate (Perm_sp, Subtype)` -/
def Capability.validateSp (objects : Objects) (c : Capability) (p : Perm) (s : ObjSubtype) : Bool :=
  c.obj ≠ 0#64 && objects.type c.obj = .pd && objects.subtype c.obj = s && c.prm &&& p = p

namespace Hazard

def sched : BitVec 32 := 1#32 <<< 0
def sleep : BitVec 32 := 1#32 <<< 1
def rcu : BitVec 32 := 1#32 <<< 2
def bootHst : BitVec 32 := 1#32 <<< 8
def bootGst : BitVec 32 := 1#32 <<< 9
def tr : BitVec 32 := 1#32 <<< 15
def fpu : BitVec 32 := 1#32 <<< 16
def tsc : BitVec 32 := 1#32 <<< 29
def recalled : BitVec 32 := 1#32 <<< 30
def illegal : BitVec 32 := 1#32 <<< 31

/-- `hazard & h` as a condition -/
def has (hazard h : BitVec 32) : Bool := hazard &&& h ≠ 0#32

theorem has_bit (hazard : BitVec 32) {i : Nat} (small : i < 32) : has hazard (1#32 <<< i) = hazard.getLsbD i := by
  unfold has
  rw [Bool.eq_iff_iff, decide_eq_true_iff]
  exact and_bit_ne_zero hazard small

theorem has_fpu (hazard : BitVec 32) : has hazard fpu = hazard.getLsbD 16 := has_bit hazard (by decide)

theorem getLsbD_bit {i j : Nat} (small : j < 32) : (1#32 <<< i).getLsbD j = decide (i = j) := by
  rw [BitVec.getLsbD_shiftLeft, BitVec.getLsbD_one]
  by_cases same : i = j
  · subst same
    simp [small]
  · by_cases less : j < i
    · simp [less, same]
    · have gap : j - i ≠ 0 := by omega
      simp [same, gap]

/-- `set` and `clr` change one hazard. -/
theorem has_set (hazard : BitVec 32) {i j : Nat} (small : j < 32) :
    has (hazard ||| 1#32 <<< i) (1#32 <<< j) = (has hazard (1#32 <<< j) || decide (i = j)) := by
  rw [has_bit _ small, has_bit _ small, BitVec.getLsbD_or, getLsbD_bit small]

theorem has_clr (hazard : BitVec 32) {i j : Nat} (small : j < 32) :
    has (hazard &&& ~~~ (1#32 <<< i)) (1#32 <<< j) = (has hazard (1#32 <<< j) && !decide (i = j)) := by
  rw [has_bit _ small, has_bit _ small, BitVec.getLsbD_and, BitVec.getLsbD_not, getLsbD_bit small]
  simp [small]

variable (hazard : BitVec 32)

@[simp] theorem has_fpu_or : has (hazard ||| fpu) fpu = true := (has_set hazard (by decide)).trans (Bool.or_true _)

@[simp] theorem has_fpu_and_not : has (hazard &&& ~~~ fpu) fpu = false := (has_clr hazard (by decide)).trans (Bool.and_false _)

theorem has_fpu_xor (a b mask : BitVec 32) (inside : mask.getLsbD 16 = true) :
    has ((a ^^^ b) &&& mask) fpu = (has a fpu ^^ has b fpu) := by
  rw [has_fpu, has_fpu, has_fpu, BitVec.getLsbD_and, BitVec.getLsbD_xor, inside, Bool.and_true]

@[simp] theorem has_fpu_not_illegal : has (hazard &&& ~~~ illegal) fpu = has hazard fpu :=
  (has_clr hazard (by decide)).trans (Bool.and_true _)

@[simp] theorem has_fpu_illegal : has (hazard ||| illegal) fpu = has hazard fpu :=
  (has_set hazard (by decide)).trans (Bool.or_false _)

@[simp] theorem has_illegal_or : has (hazard ||| illegal) illegal = true :=
  (has_set hazard (by decide)).trans (Bool.or_true _)

@[simp] theorem has_illegal_recall : has (hazard ||| recalled) illegal = has hazard illegal :=
  (has_set hazard (by decide)).trans (Bool.or_false _)

@[simp] theorem has_illegal_not_recall : has (hazard &&& ~~~ recalled) illegal = has hazard illegal :=
  (has_clr hazard (by decide)).trans (Bool.and_true _)

@[simp] theorem has_recall_or : has (hazard ||| recalled) recalled = true :=
  (has_set hazard (by decide)).trans (Bool.or_true _)

@[simp] theorem has_recall_not : has (hazard &&& ~~~ recalled) recalled = false :=
  (has_clr hazard (by decide)).trans (Bool.and_false _)

@[simp] theorem has_recall_illegal : has (hazard ||| illegal) recalled = has hazard recalled :=
  (has_set hazard (by decide)).trans (Bool.or_false _)

@[simp] theorem has_recall_not_illegal : has (hazard &&& ~~~ illegal) recalled = has hazard recalled :=
  (has_clr hazard (by decide)).trans (Bool.and_true _)

end Hazard

namespace Vmx

/-- `Vmcs::Encoding`, as far as a field is read or written here -/
inductive Encoding
  | guestSelEs | guestSelCs | guestSelSs | guestSelDs | guestSelFs | guestSelGs | guestSelLdtr | guestSelTr
  | guestLimitEs | guestLimitCs | guestLimitSs | guestLimitDs | guestLimitFs | guestLimitGs | guestLimitLdtr | guestLimitTr
  | guestArEs | guestArCs | guestArSs | guestArDs | guestArFs | guestArGs | guestArLdtr | guestArTr
  | guestBaseEs | guestBaseCs | guestBaseSs | guestBaseDs | guestBaseFs | guestBaseGs | guestBaseLdtr | guestBaseTr
  | guestLimitGdtr | guestLimitIdtr | guestBaseGdtr | guestBaseIdtr
  | guestRsp | guestRip | guestRflags | guestIntrState | guestActvState
  | guestPdpte0 | guestPdpte1 | guestPdpte2 | guestPdpte3
  | guestCr0 | guestCr3 | guestCr4 | guestDr7 | guestPat | guestEfer
  | guestSysenterCs | guestSysenterEsp | guestSysenterEip
  | cr0Mask | cr4Mask | cr0ReadShadow | cr4ReadShadow
  | bitmapExc | pfErrorMask | pfErrorMatch | tprThreshold
  | cpuControlsPri | cpuControlsSec | cpuControlsTer | entControls
  | entInstLen | injEventIdent | injEventError
  | bitmapIoA | bitmapIoB | bitmapMsr | eptp
  | exiInstLen | exiInstInfo | exiQualification | guestLinearAddress | guestPhysicalAddress
  | exiEventIdent | exiEventError | orgEventIdent | orgEventError
  deriving DecidableEq

structure SysRegs where
  rax : Word
  rcx : Word
  rdx : Word
  rbx : Word
  rbp : Word
  rsi : Word
  rdi : Word
  r8 : Word
  r9 : Word
  r10 : Word
  r11 : Word
  r12 : Word
  r13 : Word
  r14 : Word
  r15 : Word
  deriving Inhabited

/-- `Cpu_regs` of a virtual CPU, with the contents of its VMCS; a null pointer is 0. -/
structure CpuRegs where
  sys : SysRegs
  cr2 : Word
  ep : Word
  shadowCr0 : Word
  shadowCr4 : Word
  intcptCr0 : Word
  intcptCr4 : Word
  intcptExc : BitVec 32
  fpuOn : Bool
  star : Word
  lstar : Word
  fmask : Word
  kernelGsBase : Word
  xcr : Word
  xss : Word
  obj : Word
  gst : Word
  pio : Word
  msr : Word
  hazard : BitVec 32
  vmcs : Encoding → Word

/-- What `Vmcs::init` and `Fpu::init` found out about the CPU -/
structure Host where
  cpuPriSet : BitVec 32
  cpuPriClr : BitVec 32
  cpuSecSet : BitVec 32
  cpuSecClr : BitVec 32
  cpuTerSet : Word
  cpuTerClr : Word
  fixCr0Set : Word
  fixCr0Clr : Word
  fixCr4Set : Word
  fixCr4Clr : Word
  xcr : Word
  xss : Word

structure Segment where
  sel : BitVec 16
  ar : BitVec 16
  limit : BitVec 32
  base : Word
  deriving Inhabited

/-- `Utcb_arch` -/
structure UtcbArch where
  sys : SysRegs
  rsp : Word
  rfl : Word
  rip : Word
  instLen : BitVec 32
  instInfo : BitVec 32
  intrState : BitVec 32
  actvState : BitVec 32
  qual0 : Word
  qual1 : Word
  qual2 : Word
  ctrlPri : BitVec 32
  ctrlSec : BitVec 32
  ctrlTer : Word
  intcptCr0 : Word
  intcptCr4 : Word
  intcptExc : BitVec 32
  pfeMask : BitVec 32
  pfeMatch : BitVec 32
  tprThreshold : BitVec 32
  intrInfo : BitVec 32
  intrErrc : BitVec 32
  vectInfo : BitVec 32
  vectErrc : BitVec 32
  cs : Segment
  ss : Segment
  ds : Segment
  es : Segment
  fs : Segment
  gs : Segment
  tr : Segment
  ld : Segment
  gd : Segment
  id : Segment
  pdpte0 : Word
  pdpte1 : Word
  pdpte2 : Word
  pdpte3 : Word
  cr0 : Word
  cr2 : Word
  cr3 : Word
  cr4 : Word
  dr7 : Word
  xcr0 : Word
  xss : Word
  sysenterCs : Word
  sysenterEsp : Word
  sysenterEip : Word
  pat : Word
  efer : Word
  star : Word
  lstar : Word
  fmask : Word
  kernelGsBase : Word
  selGst : Word
  selPio : Word
  selMsr : Word
  deriving Inhabited

/-! `Mtd_arch::Item` -/

namespace Item

def poison : BitVec 32 := 1#32 <<< 0
def gpr0To7 : BitVec 32 := 1#32 <<< 1
def gpr8To15 : BitVec 32 := 1#32 <<< 2
def rflags : BitVec 32 := 1#32 <<< 3
def rip : BitVec 32 := 1#32 <<< 4
def sta : BitVec 32 := 1#32 <<< 5
def ctrl : BitVec 32 := 1#32 <<< 7
def tpr : BitVec 32 := 1#32 <<< 8
def inj : BitVec 32 := 1#32 <<< 9
def csSs : BitVec 32 := 1#32 <<< 10
def dsEs : BitVec 32 := 1#32 <<< 11
def fsGs : BitVec 32 := 1#32 <<< 12
def tr : BitVec 32 := 1#32 <<< 13
def ldtr : BitVec 32 := 1#32 <<< 14
def gdtr : BitVec 32 := 1#32 <<< 15
def idtr : BitVec 32 := 1#32 <<< 16
def pdpte : BitVec 32 := 1#32 <<< 17
def cr : BitVec 32 := 1#32 <<< 18
def dr : BitVec 32 := 1#32 <<< 19
def xsave : BitVec 32 := 1#32 <<< 20
def syscall : BitVec 32 := 1#32 <<< 21
def sysenter : BitVec 32 := 1#32 <<< 22
def pat : BitVec 32 := 1#32 <<< 23
def efer : BitVec 32 := 1#32 <<< 24
def kernelGsBase : BitVec 32 := 1#32 <<< 25
def spaces : BitVec 32 := 1#32 <<< 31

end Item

def cr0Ts : Word := 1#64 <<< 3
def cr0Em : Word := 1#64 <<< 2
def excNm : BitVec 32 := 1#32 <<< 7
def excAc : BitVec 32 := 1#32 <<< 17

namespace CpuRegs

variable (host : Host) (u : UtcbArch) (c : CpuRegs)

/-- `Vmcs::write` -/
def write (field : Encoding) (v : Word) : CpuRegs := { c with vmcs := Function.update c.vmcs field v }

def write32 (field : Encoding) (v : BitVec 32) : CpuRegs := c.write field (v.setWidth 64)

/-- `regs.hazard.set` -/
def hazardSet (h : BitVec 32) (c : CpuRegs) : CpuRegs := { c with hazard := c.hazard ||| h }

/-- `regs.hazard.clr` -/
def hazardClr (h : BitVec 32) (c : CpuRegs) : CpuRegs := { c with hazard := c.hazard &&& ~~~ h }

/-! ## Control registers and exceptions -/

def setCr0 : Word := host.fixCr0Set ||| if c.fpuOn then 0#64 else cr0Ts

def mskCr0 : Word := host.fixCr0Clr ||| c.setCr0 host

def setCr4 : Word := host.fixCr4Set

def mskCr4 : Word := host.fixCr4Clr ||| setCr4 host

def setExc : BitVec 32 := excAc ||| if c.fpuOn then 0#32 else excNm

def vmxGetGstCr0 : Word := (c.vmcs .guestCr0 &&& ~~~ c.mskCr0 host) ||| (c.shadowCr0 &&& c.mskCr0 host)

def vmxSetGstCr0 (v : Word) : CpuRegs :=
  let c := { c with shadowCr0 := v }.write .cr0ReadShadow v
  c.write .guestCr0 ((v &&& ~~~ c.mskCr0 host) ||| c.setCr0 host)

def vmxSetGstCr4 (v : Word) : CpuRegs :=
  let c := { c with shadowCr4 := v }.write .cr4ReadShadow v
  c.write .guestCr4 ((v &&& ~~~ mskCr4 host) ||| setCr4 host)

def vmxSetMskCr0 : CpuRegs := c.write .cr0Mask (c.mskCr0 host ||| c.intcptCr0)

def vmxSetMskCr4 : CpuRegs := c.write .cr4Mask (mskCr4 host ||| c.intcptCr4)

def vmxSetBmpExc : CpuRegs := c.write32 .bitmapExc (c.setExc ||| c.intcptExc)

def cpuTprShadow : BitVec 32 := 1#32 <<< 21
def cpuCr8Load : BitVec 32 := 1#32 <<< 19
def cpuCr8Store : BitVec 32 := 1#32 <<< 20
def cpuIntrWindow : BitVec 32 := 1#32 <<< 2
def cpuNmiWindow : BitVec 32 := 1#32 <<< 22

def vmxSetCpuPri (val : BitVec 32) : CpuRegs :=
  let val := if val &&& cpuTprShadow = 0#32 then val ||| cpuCr8Load ||| cpuCr8Store else val
  c.write32 .cpuControlsPri ((val ||| host.cpuPriSet) &&& host.cpuPriClr)

def vmxSetCpuSec (val : BitVec 32) : CpuRegs := c.write32 .cpuControlsSec ((val ||| host.cpuSecSet) &&& host.cpuSecClr)

def vmxSetCpuTer (val : Word) : CpuRegs := c.write .cpuControlsTer ((val ||| host.cpuTerSet) &&& host.cpuTerClr)

/-- `fpu_ctrl` -/
def fpuCtrl (on : Bool) : CpuRegs :=
  let cr0 := c.vmxGetGstCr0 host
  let c := { c with fpuOn := on }
  ((c.vmxSetGstCr0 host cr0).vmxSetMskCr0 host).vmxSetBmpExc

/-- `Event::gst_arch + Event::Selector::STARTUP` -/
def startup : Word := 256#64

/-- The constructor of a virtual CPU.  `Vmcs::operator new` does not clear the page: `stale` is what the
fields of the VMCS hold before. -/
def create (obj : Word) (stale : Encoding → Word) : CpuRegs :=
  let c : CpuRegs :=
    { sys := ⟨0#64, 0#64, 0#64, 0#64, 0#64, 0#64, 0#64, 0#64, 0#64, 0#64, 0#64, 0#64, 0#64, 0#64, 0#64⟩
      cr2 := 0#64, ep := startup, shadowCr0 := 0#64, shadowCr4 := 0x2b#64, intcptCr0 := 0#64, intcptCr4 := 0#64, intcptExc := 0#32
      fpuOn := false, star := 0#64, lstar := 0#64, fmask := 0#64, kernelGsBase := 0#64, xcr := 1#64, xss := 0#64
      obj := obj, gst := 0#64, pio := 0#64, msr := 0#64, hazard := Hazard.illegal, vmcs := stale }
  ((((c.vmxSetMskCr0 host).vmxSetMskCr4 host).vmxSetBmpExc).vmxSetCpuPri host 0#32).vmxSetCpuSec host 0#32

/-! ## The items of a message -/

def saveGpr0To7 : CpuRegs :=
  { c with sys := { c.sys with
      rax := u.sys.rax, rcx := u.sys.rcx, rdx := u.sys.rdx, rbx := u.sys.rbx
      rbp := u.sys.rbp, rsi := u.sys.rsi, rdi := u.sys.rdi } }.write .guestRsp u.rsp

def saveGpr8To15 : CpuRegs :=
  { c with sys := { c.sys with
      r8 := u.sys.r8, r9 := u.sys.r9, r10 := u.sys.r10, r11 := u.sys.r11
      r12 := u.sys.r12, r13 := u.sys.r13, r14 := u.sys.r14, r15 := u.sys.r15 } }

def saveRflags : CpuRegs := c.write .guestRflags u.rfl

def saveRip : CpuRegs := (c.write .guestRip u.rip).write32 .entInstLen u.instLen

def saveSta : CpuRegs := (c.write32 .guestIntrState u.intrState).write32 .guestActvState u.actvState

def saveCtrl : CpuRegs :=
  let c := { c with intcptCr0 := u.intcptCr0, intcptCr4 := u.intcptCr4, intcptExc := u.intcptExc }
  let c := ((c.vmxSetMskCr0 host).vmxSetMskCr4 host).vmxSetBmpExc
  let c := ((c.vmxSetCpuPri host u.ctrlPri).vmxSetCpuSec host u.ctrlSec).vmxSetCpuTer host u.ctrlTer
  (c.write32 .pfErrorMask u.pfeMask).write32 .pfErrorMatch u.pfeMatch

def saveTpr : CpuRegs := c.write32 .tprThreshold u.tprThreshold

def saveInj : CpuRegs :=
  let val := (c.vmcs .cpuControlsPri).setWidth 32
  let val := if u.intrInfo &&& 0x1000#32 ≠ 0#32 then val ||| cpuIntrWindow else val &&& ~~~ cpuIntrWindow
  let val := if u.intrInfo &&& 0x2000#32 ≠ 0#32 then val ||| cpuNmiWindow else val &&& ~~~ cpuNmiWindow
  ((c.vmxSetCpuPri host val).write32 .injEventIdent (u.intrInfo &&& ~~~ 0x3000#32)).write32 .injEventError u.intrErrc

/-- The access rights as the VMCS has them -/
def accessRights (ar : BitVec 16) : BitVec 32 := (ar.setWidth 32 <<< 4 &&& 0x1f000#32) ||| (ar.setWidth 32 &&& 0xff#32)

def saveSegment (sel base limit ar : Encoding) (s : Segment) : CpuRegs :=
  (((c.write sel (s.sel.setWidth 64)).write base s.base).write32 limit s.limit).write32 ar (accessRights s.ar)

def saveCsSs : CpuRegs :=
  (c.saveSegment .guestSelCs .guestBaseCs .guestLimitCs .guestArCs u.cs).saveSegment
    .guestSelSs .guestBaseSs .guestLimitSs .guestArSs u.ss

def saveDsEs : CpuRegs :=
  (c.saveSegment .guestSelDs .guestBaseDs .guestLimitDs .guestArDs u.ds).saveSegment
    .guestSelEs .guestBaseEs .guestLimitEs .guestArEs u.es

def saveFsGs : CpuRegs :=
  (c.saveSegment .guestSelFs .guestBaseFs .guestLimitFs .guestArFs u.fs).saveSegment
    .guestSelGs .guestBaseGs .guestLimitGs .guestArGs u.gs

def saveTr : CpuRegs := c.saveSegment .guestSelTr .guestBaseTr .guestLimitTr .guestArTr u.tr

def saveLdtr : CpuRegs := c.saveSegment .guestSelLdtr .guestBaseLdtr .guestLimitLdtr .guestArLdtr u.ld

def saveGdtr : CpuRegs := (c.write .guestBaseGdtr u.gd.base).write32 .guestLimitGdtr u.gd.limit

def saveIdtr : CpuRegs := (c.write .guestBaseIdtr u.id.base).write32 .guestLimitIdtr u.id.limit

def savePdpte : CpuRegs :=
  (((c.write .guestPdpte0 u.pdpte0).write .guestPdpte1 u.pdpte1).write .guestPdpte2 u.pdpte2).write .guestPdpte3 u.pdpte3

def saveCr : CpuRegs := { (c.vmxSetGstCr0 host u.cr0).vmxSetGstCr4 host u.cr4 with cr2 := u.cr2 }.write .guestCr3 u.cr3

def saveDr : CpuRegs := c.write .guestDr7 u.dr7

/-- `Fpu::State::constrain_xcr` -/
def constrainXcr (v : Word) : Word :=
  let v := if v &&& 0xe0#64 ≠ 0#64 then v ||| 0xe4#64 else v
  let v := if v &&& 4#64 ≠ 0#64 then v ||| 2#64 else v
  host.xcr &&& (v ||| 1#64)

/-- `Fpu::State::constrain_xss` -/
def constrainXss (v : Word) : Word := host.xss &&& v

def saveXsave : CpuRegs := { c with xcr := constrainXcr host u.xcr0, xss := constrainXss host u.xss }

/-- `Cpu::State::constrain_canon`: 48 bits, sign-extended -/
def constrainCanon (v : Word) : Word := (v.setWidth 48).signExtend 64

/-- `Cpu::State::constrain_star` -/
def constrainStar (v : Word) : Word := v &&& 0xffffffff00000000#64

/-- `Cpu::State::constrain_fmask` -/
def constrainFmask (v : Word) : Word := v &&& 0xffffffff#64

def saveSyscall : CpuRegs :=
  { c with star := constrainStar u.star, lstar := constrainCanon u.lstar, fmask := constrainFmask u.fmask }

def saveSysenter : CpuRegs :=
  ((c.write .guestSysenterCs u.sysenterCs).write .guestSysenterEsp u.sysenterEsp).write .guestSysenterEip u.sysenterEip

def savePat : CpuRegs := c.write .guestPat u.pat

def eferLma : Word := 1#64 <<< 10
def entGuest64 : BitVec 32 := 1#32 <<< 9

def saveEfer : CpuRegs :=
  let c := c.write .guestEfer u.efer
  let ent := (c.vmcs .entControls).setWidth 32
  c.write32 .entControls (if u.efer &&& eferLma ≠ 0#64 then ent ||| entGuest64 else ent &&& ~~~ entGuest64)

def saveKernelGsBase : CpuRegs := { c with kernelGsBase := constrainCanon u.kernelGsBase }

/-- The items between `POISON` and `SPACES`.  `QUAL` is read-only; `TLB` changes no register. -/
def items : List (BitVec 32 × (CpuRegs → CpuRegs)) :=
  [(Item.gpr0To7, saveGpr0To7 u), (Item.gpr8To15, saveGpr8To15 u), (Item.rflags, saveRflags u), (Item.rip, saveRip u),
    (Item.sta, saveSta u), (Item.ctrl, saveCtrl host u), (Item.tpr, saveTpr u), (Item.inj, saveInj host u),
    (Item.csSs, saveCsSs u), (Item.dsEs, saveDsEs u), (Item.fsGs, saveFsGs u), (Item.tr, saveTr u), (Item.ldtr, saveLdtr u),
    (Item.gdtr, saveGdtr u), (Item.idtr, saveIdtr u), (Item.pdpte, savePdpte u), (Item.cr, saveCr host u),
    (Item.dr, saveDr u), (Item.xsave, saveXsave host u), (Item.syscall, saveSyscall u), (Item.sysenter, saveSysenter u),
    (Item.pat, savePat u), (Item.efer, saveEfer u), (Item.kernelGsBase, saveKernelGsBase u)]

def saveItem (m : BitVec 32) (c : CpuRegs) (i : BitVec 32 × (CpuRegs → CpuRegs)) : CpuRegs :=
  if m &&& i.1 ≠ 0#32 then i.2 c else c

def saveItems (m : BitVec 32) : CpuRegs := (items host u).foldl (saveItem m) c

/-! ## Spaces -/

variable (objects : Objects) (caps : Caps)

/-- `assign_spaces`; `caps` are the capabilities of the object space of the VMM. -/
def assignSpaces : Option CpuRegs :=
  let cgst := caps.lookup u.selGst
  let cpio := caps.lookup u.selPio
  let cmsr := caps.lookup u.selMsr
  if !cgst.validateSp objects Perm.spAssign ObjSubtype.gst || !cpio.validateSp objects Perm.spAssign ObjSubtype.pio ||
      !cmsr.validateSp objects Perm.spAssign ObjSubtype.msr then none
  else
    let own := objects.pd c.obj
    if objects.pd cgst.obj ≠ own ∨ objects.pd cpio.obj ≠ own ∨ objects.pd cmsr.obj ≠ own then none
    else some ({ c with gst := cgst.obj, pio := cpio.obj, msr := cmsr.obj }.hazardClr Hazard.illegal)

/-- `(Eptp::lev - 1) << 3 | CA_TYPE_MEM_WB` -/
def eptpAttr : Word := 30#64

def pageSize : Word := 4096#64

def writeSpaces : CpuRegs :=
  (((c.write .eptp (objects.phys c.gst ||| eptpAttr)).write .bitmapIoA (objects.phys c.pio)).write .bitmapIoB
    (objects.phys c.pio + pageSize)).write .bitmapMsr (objects.phys c.msr)

def saveVmx (m : BitVec 32) : Bool × CpuRegs :=
  if m &&& Item.poison ≠ 0#32 then (false, c)
  else
    let c := c.saveItems host u m
    if m &&& Item.spaces ≠ 0#32 then
      match c.assignSpaces u objects caps with
      | none => (false, c)
      | some c => (true, c.writeSpaces objects)
    else (true, c)

/-! ## What a message leaves alone -/

section Frame

variable {host : Host} {u : UtcbArch} {c : CpuRegs} {m : BitVec 32} {objects : Objects} {caps : Caps}

theorem foldl_keeps {P : CpuRegs → Prop} (keeps : ∀ i ∈ items host u, ∀ c, P c → P (i.2 c))
    {l : List (BitVec 32 × (CpuRegs → CpuRegs))} (part : ∀ i ∈ l, i ∈ items host u) (holds : P c) :
    P (l.foldl (saveItem m) c) := by
  induction l generalizing c with
  | nil => exact holds
  | cons i rest ih =>
      rw [List.foldl_cons]
      apply ih (fun j member => part j (List.mem_cons_of_mem i member))
      unfold saveItem
      split
      · exact keeps i (part i List.mem_cons_self) c holds
      · exact holds

/-- An invariant of all items is one of the message. -/
theorem saveItems_keeps {P : CpuRegs → Prop} (keeps : ∀ i ∈ items host u, ∀ c, P c → P (i.2 c)) (holds : P c) :
    P (c.saveItems host u m) :=
  foldl_keeps keeps (fun _ member => member) holds

/-- The part of the registers that only `assign_spaces` changes, and what depends on the spaces in the VMCS -/
def seat (c : CpuRegs) : Word × Word × Word × Word × BitVec 32 × Word × Word × Word × Word :=
  (c.obj, c.gst, c.pio, c.msr, c.hazard, c.vmcs .eptp, c.vmcs .bitmapIoA, c.vmcs .bitmapIoB, c.vmcs .bitmapMsr)

theorem seat_write (v : Word) {field : Encoding}
    (other : field ≠ .eptp ∧ field ≠ .bitmapIoA ∧ field ≠ .bitmapIoB ∧ field ≠ .bitmapMsr) :
    (c.write field v).seat = c.seat := by
  obtain ⟨eptp, ioA, ioB, msr⟩ := other
  simp only [seat, write, Function.update_of_ne eptp.symm, Function.update_of_ne ioA.symm, Function.update_of_ne ioB.symm,
    Function.update_of_ne msr.symm]

theorem seat_write32 (v : BitVec 32) {field : Encoding}
    (other : field ≠ .eptp ∧ field ≠ .bitmapIoA ∧ field ≠ .bitmapIoB ∧ field ≠ .bitmapMsr) :
    (c.write32 field v).seat = c.seat := seat_write _ other

theorem items_seat : ∀ i ∈ items host u, ∀ c : CpuRegs, (i.2 c).seat = c.seat := by
  simp only [items, List.forall_mem_cons]
  refine ⟨fun c => ?_, fun c => ?_, fun c => ?_, fun c => ?_, fun c => ?_, fun c => ?_, fun c => ?_, fun c => ?_,
    fun c => ?_, fun c => ?_, fun c => ?_, fun c => ?_, fun c => ?_, fun c => ?_, fun c => ?_, fun c => ?_,
    fun c => ?_, fun c => ?_, fun c => ?_, fun c => ?_, fun c => ?_, fun c => ?_, fun c => ?_, fun c => ?_, nofun⟩
  -- no item writes a field of the spaces; what remains are items that change registers outside the VMCS
  all_goals
    simp (disch := decide) only [saveGpr0To7, saveGpr8To15, saveRflags, saveRip, saveSta, saveCtrl, saveTpr, saveInj, saveCsSs,
      saveDsEs, saveFsGs, saveTr, saveLdtr, saveGdtr, saveIdtr, savePdpte, saveCr, saveDr, saveXsave, saveSyscall,
      saveSysenter, savePat, saveEfer, saveKernelGsBase, saveSegment, vmxSetCpuPri, vmxSetCpuSec, vmxSetCpuTer,
      vmxSetBmpExc, vmxSetMskCr0, vmxSetMskCr4, vmxSetGstCr0, vmxSetGstCr4, seat_write, seat_write32]
  all_goals rfl

theorem saveItems_seat : (c.saveItems host u m).seat = c.seat := by
  refine saveItems_keeps (P := fun d => d.seat = c.seat) (fun i member d same => ?_) rfl
  rw [items_seat i member d, same]

theorem saveItems_hazard : (c.saveItems host u m).hazard = c.hazard :=
  congrArg (fun seat => seat.2.2.2.2.1) (@saveItems_seat host u c m)

/-- The controls in the VMCS are those for `fpu_on`. -/
structure Guise (host : Host) (c : CpuRegs) : Prop where
  mask : c.vmcs .cr0Mask = c.mskCr0 host ||| c.intcptCr0
  exc : c.vmcs .bitmapExc = (c.setExc ||| c.intcptExc).setWidth 64

/-- CR0.TS is set for a guest that must not use the FPU. -/
def Forced (c : CpuRegs) : Prop := c.fpuOn = false → c.vmcs .guestCr0 &&& cr0Ts ≠ 0#64

/-- What `Guise` and `Forced` look at -/
def visage (c : CpuRegs) : Bool × Word × BitVec 32 × Word × Word × Word :=
  (c.fpuOn, c.intcptCr0, c.intcptExc, c.vmcs .cr0Mask, c.vmcs .bitmapExc, c.vmcs .guestCr0)

theorem visage_write (v : Word) {field : Encoding} (other : field ≠ .cr0Mask ∧ field ≠ .bitmapExc ∧ field ≠ .guestCr0) :
    (c.write field v).visage = c.visage := by
  obtain ⟨mask, exc, cr0⟩ := other
  simp only [visage, write, Function.update_of_ne mask.symm, Function.update_of_ne exc.symm, Function.update_of_ne cr0.symm]

theorem visage_hazardSet (h : BitVec 32) : (c.hazardSet h).visage = c.visage := rfl

theorem visage_hazardClr (h : BitVec 32) : (c.hazardClr h).visage = c.visage := rfl

theorem visage_write32 (v : BitVec 32) {field : Encoding}
    (other : field ≠ .cr0Mask ∧ field ≠ .bitmapExc ∧ field ≠ .guestCr0) : (c.write32 field v).visage = c.visage :=
  visage_write _ other

theorem Guise.of_visage {d : CpuRegs} (guise : Guise host c) (same : d.visage = c.visage) : Guise host d := by
  simp only [visage, Prod.mk.injEq] at same
  obtain ⟨on, cr0, exc, mask, bitmap, -⟩ := same
  refine ⟨?_, ?_⟩
  · rw [mask, cr0, guise.mask, mskCr0, mskCr0, setCr0, setCr0, on]
  · rw [bitmap, exc, guise.exc, setExc, setExc, on]

theorem Forced.of_visage {d : CpuRegs} (forced : Forced c) (same : d.visage = c.visage) : Forced d := by
  simp only [visage, Prod.mk.injEq] at same
  obtain ⟨on, -, -, -, -, cr0⟩ := same
  unfold Forced
  rw [on, cr0]
  exact forced

theorem fpuOn_of_visage {d : CpuRegs} (same : d.visage = c.visage) : d.fpuOn = c.fpuOn := congrArg Prod.fst same

theorem ts_iff (w : Word) : w &&& cr0Ts ≠ 0#64 ↔ w.getLsbD 3 = true := and_bit_ne_zero w (by decide)

/-- `CR` transfers CR0 as `fpu_on` demands. -/
theorem forced_setGstCr0 (v : Word) : Forced (c.vmxSetGstCr0 host v) := by
  intro off
  change c.fpuOn = false at off
  unfold vmxSetGstCr0
  simp only [write, Function.update_self]
  unfold setCr0
  simp only [off, Bool.false_eq_true, if_false]
  rw [ts_iff, BitVec.getLsbD_or, BitVec.getLsbD_or]
  simp [cr0Ts]

theorem guise_setGstCr0 (guise : Guise host c) (v : Word) : Guise host (c.vmxSetGstCr0 host v) :=
  ⟨guise.mask, guise.exc⟩

theorem saveCr_visage : (saveCr host u c).visage = (c.vmxSetGstCr0 host u.cr0).visage := by
  simp (disch := decide) only [saveCr, vmxSetGstCr4, visage_write]
  rfl

theorem forced_saveCr : Forced (saveCr host u c) := (forced_setGstCr0 u.cr0).of_visage saveCr_visage

theorem guise_saveCr (guise : Guise host c) : Guise host (saveCr host u c) :=
  (guise_setGstCr0 guise u.cr0).of_visage saveCr_visage

/-- `CTRL` up to the exception bitmap -/
theorem saveCtrl_visage : (saveCtrl host u c).visage = ((({ c with
    intcptCr0 := u.intcptCr0, intcptCr4 := u.intcptCr4, intcptExc := u.intcptExc }.vmxSetMskCr0 host).vmxSetMskCr4
      host).vmxSetBmpExc).visage := by
  simp (disch := decide) only [saveCtrl, vmxSetCpuPri, vmxSetCpuSec, vmxSetCpuTer, visage_write, visage_write32]

theorem guise_saveCtrl : Guise host (saveCtrl host u c) :=
  Guise.of_visage ⟨rfl, rfl⟩ saveCtrl_visage

theorem forced_saveCtrl (forced : Forced c) : Forced (saveCtrl host u c) := by
  refine Forced.of_visage ?_ saveCtrl_visage
  exact forced

/-- Only `CTRL` and `CR` have to do with the FPU. -/
theorem items_visage : ∀ i ∈ items host u,
    i.2 = saveCtrl host u ∨ i.2 = saveCr host u ∨ ∀ c : CpuRegs, (i.2 c).visage = c.visage := by
  simp only [items, List.forall_mem_cons]
  refine ⟨.inr (.inr fun c => ?_), .inr (.inr fun c => ?_), .inr (.inr fun c => ?_), .inr (.inr fun c => ?_),
    .inr (.inr fun c => ?_), .inl trivial, .inr (.inr fun c => ?_), .inr (.inr fun c => ?_), .inr (.inr fun c => ?_),
    .inr (.inr fun c => ?_), .inr (.inr fun c => ?_), .inr (.inr fun c => ?_), .inr (.inr fun c => ?_),
    .inr (.inr fun c => ?_), .inr (.inr fun c => ?_), .inr (.inr fun c => ?_), .inr (.inl trivial),
    .inr (.inr fun c => ?_), .inr (.inr fun c => ?_), .inr (.inr fun c => ?_), .inr (.inr fun c => ?_),
    .inr (.inr fun c => ?_), .inr (.inr fun c => ?_), .inr (.inr fun c => ?_), nofun⟩
  all_goals
    simp (disch := decide) only [saveGpr0To7, saveGpr8To15, saveRflags, saveRip, saveSta, saveTpr, saveInj, saveCsSs,
      saveDsEs, saveFsGs, saveTr, saveLdtr, saveGdtr, saveIdtr, savePdpte, saveDr, saveXsave, saveSyscall,
      saveSysenter, savePat, saveEfer, saveKernelGsBase, saveSegment, vmxSetCpuPri, visage_write, visage_write32]
  all_goals rfl

theorem saveItems_guise (guise : Guise host c) : Guise host (c.saveItems host u m) := by
  refine saveItems_keeps (fun i member d guise => ?_) guise
  rcases items_visage i member with ctrl | cr | same
  · rw [ctrl]
    exact guise_saveCtrl
  · rw [cr]
    exact guise_saveCr guise
  · exact guise.of_visage (same d)

theorem items_forced : ∀ i ∈ items host u, ∀ c, Forced c → Forced (i.2 c) := by
  intro i member d forced
  rcases items_visage i member with ctrl | cr | same
  · rw [ctrl]
    exact forced_saveCtrl forced
  · rw [cr]
    exact forced_saveCr
  · exact forced.of_visage (same d)

theorem items_fpuOn : ∀ i ∈ items host u, ∀ c : CpuRegs, (i.2 c).fpuOn = c.fpuOn := by
  intro i member d
  rcases items_visage i member with ctrl | cr | same
  · rw [ctrl]
    rw [fpuOn_of_visage saveCtrl_visage]
    rfl
  · rw [cr]
    rw [fpuOn_of_visage saveCr_visage]
    rfl
  · exact fpuOn_of_visage (same d)

theorem saveItems_forced (forced : Forced c) : Forced (c.saveItems host u m) := saveItems_keeps items_forced forced

theorem saveItems_fpuOn : (c.saveItems host u m).fpuOn = c.fpuOn := by
  refine saveItems_keeps (P := fun d => d.fpuOn = c.fpuOn) (fun i member d same => ?_) rfl
  rw [items_fpuOn i member d, same]

/-- After `CR` has been transferred, no other item undoes it. -/
theorem saveItems_transferred (transferred : m &&& Item.cr ≠ 0#32) : Forced (c.saveItems host u m) := by
  have member : (Item.cr, saveCr host u) ∈ items host u := by simp only [items, List.mem_cons, true_or, or_true]
  obtain ⟨before, after, split⟩ := List.append_of_mem member
  unfold saveItems
  rw [split, List.foldl_append, List.foldl_cons]
  refine foldl_keeps (@items_forced host u) (fun i later => ?_) ?_
  · rw [split]
    exact List.mem_append_right before (List.mem_cons_of_mem _ later)
  · unfold saveItem
    rw [if_pos transferred]
    exact forced_saveCr

/-- The capability lets its holder assign a space of this kind to a virtual CPU of the PD. -/
structure Assigns (objects : Objects) (own : Word) (s : ObjSubtype) (cap : Capability) : Prop where
  valid : cap.validateSp objects Perm.spAssign s = true
  pd : objects.pd cap.obj = own

/-- `assign_spaces` succeeds exactly if the three capabilities are good. -/
theorem assignSpaces_eq_some {d : CpuRegs} : c.assignSpaces u objects caps = some d ↔
    (Assigns objects (objects.pd c.obj) ObjSubtype.gst (caps.lookup u.selGst) ∧
      Assigns objects (objects.pd c.obj) ObjSubtype.pio (caps.lookup u.selPio) ∧
      Assigns objects (objects.pd c.obj) ObjSubtype.msr (caps.lookup u.selMsr)) ∧
    d = { c with
      gst := (caps.lookup u.selGst).obj, pio := (caps.lookup u.selPio).obj
      msr := (caps.lookup u.selMsr).obj }.hazardClr Hazard.illegal := by
  unfold assignSpaces
  dsimp only
  split
  · rename_i invalid
    refine ⟨nofun, fun ⟨⟨gst, pio, msr⟩, _⟩ => ?_⟩
    rw [gst.valid, pio.valid, msr.valid] at invalid
    exact absurd invalid (by decide)
  · rename_i valid
    simp only [Bool.or_eq_true, Bool.not_eq_true', not_or, Bool.not_eq_false] at valid
    split
    · rename_i foreign
      refine ⟨nofun, fun ⟨⟨gst, pio, msr⟩, _⟩ => ?_⟩
      rcases foreign with foreign | foreign | foreign
      · exact absurd gst.pd foreign
      · exact absurd pio.pd foreign
      · exact absurd msr.pd foreign
    · rename_i home
      simp only [not_or, not_not] at home
      obtain ⟨gst, pio, msr⟩ := home
      refine ⟨fun is => ⟨⟨⟨valid.1.1, gst⟩, ⟨valid.1.2, pio⟩, ⟨valid.2, msr⟩⟩, (Option.some.inj is).symm⟩, ?_⟩
      rintro ⟨-, rfl⟩
      rfl

theorem writeSpaces_visage : (c.writeSpaces objects).visage = c.visage := by
  simp (disch := decide) only [writeSpaces, visage_write]

/-- The message as a whole: its items, then the spaces -/
theorem saveVmx_cases : c.saveVmx host u objects caps m = (false, c) ∨
    c.saveVmx host u objects caps m = (true, c.saveItems host u m) ∨
    c.saveVmx host u objects caps m = (false, c.saveItems host u m) ∨
    ∃ d, (c.saveItems host u m).assignSpaces u objects caps = some d ∧
      c.saveVmx host u objects caps m = (true, d.writeSpaces objects) := by
  unfold saveVmx
  dsimp only
  split
  · exact Or.inl rfl
  · split
    · cases assigned : (c.saveItems host u m).assignSpaces u objects caps with
      | none => exact Or.inr (Or.inr (Or.inl rfl))
      | some d => exact Or.inr (Or.inr (Or.inr ⟨d, rfl, rfl⟩))
    · exact Or.inr (Or.inl rfl)

/-- What holds of the items and depends on nothing else holds of the message. -/
theorem saveVmx_keeps {P : CpuRegs → Prop} (holds : P c) (items : P (c.saveItems host u m))
    (same : ∀ c d : CpuRegs, d.visage = c.visage → P c → P d) : P (c.saveVmx host u objects caps m).2 := by
  rcases @saveVmx_cases host u c m objects caps with is | is | is | ⟨d, assigned, is⟩
  · rw [is]
    exact holds
  · rw [is]
    exact items
  · rw [is]
    exact items
  · rw [is]
    apply same d _ writeSpaces_visage
    obtain ⟨-, rfl⟩ := assignSpaces_eq_some.mp assigned
    exact same (c.saveItems host u m) _ rfl items

theorem saveVmx_guise (guise : Guise host c) : Guise host (c.saveVmx host u objects caps m).2 :=
  saveVmx_keeps guise (saveItems_guise guise) fun _ _ same guise => guise.of_visage same

theorem saveVmx_forced (forced : Forced c) : Forced (c.saveVmx host u objects caps m).2 :=
  saveVmx_keeps forced (saveItems_forced forced) fun _ _ same forced => forced.of_visage same

theorem saveVmx_fpuOn : (c.saveVmx host u objects caps m).2.fpuOn = c.fpuOn :=
  saveVmx_keeps (P := fun d => d.fpuOn = c.fpuOn) rfl saveItems_fpuOn fun _ _ same is =>
    (fpuOn_of_visage same).trans is

theorem saveVmx_transferred (clean : m &&& Item.poison = 0#32) (transferred : m &&& Item.cr ≠ 0#32) :
    Forced (c.saveVmx host u objects caps m).2 := by
  have forced : Forced (c.saveItems host u m) := saveItems_transferred transferred
  unfold saveVmx
  rw [if_neg (not_not.mpr clean)]
  dsimp only
  split
  · cases assigned : (c.saveItems host u m).assignSpaces u objects caps with
    | none => exact forced
    | some d =>
        apply Forced.of_visage _ writeSpaces_visage
        obtain ⟨-, rfl⟩ := assignSpaces_eq_some.mp assigned
        exact forced
  · exact forced

/-- The hazard of the FPU is none of a VMM's business. -/
theorem saveVmx_hazard : Hazard.has (c.saveVmx host u objects caps m).2.hazard Hazard.fpu = Hazard.has c.hazard Hazard.fpu := by
  rcases @saveVmx_cases host u c m objects caps with is | is | is | ⟨d, assigned, is⟩
  · rw [is]
  · rw [is, saveItems_hazard]
  · rw [is, saveItems_hazard]
  · rw [is]
    obtain ⟨-, rfl⟩ := assignSpaces_eq_some.mp assigned
    change Hazard.has ((c.saveItems host u m).hazard &&& ~~~ Hazard.illegal) Hazard.fpu = _
    rw [Hazard.has_fpu_not_illegal, saveItems_hazard]

/-- `fpu_ctrl` brings the VMCS in line with the FPU. -/
theorem guise_fpuCtrl (on : Bool) : Guise host (c.fpuCtrl host on) := ⟨rfl, rfl⟩

/-- A guest that may use the FPU has `CR0.TS` for itself, if VMX does not fix it. -/
theorem ts_own (on : c.fpuOn = true) (free : cr0Ts &&& (host.fixCr0Set ||| host.fixCr0Clr) = 0#64) (guise : Guise host c) :
    c.vmcs .guestCr0 &&& cr0Ts = c.vmxGetGstCr0 host &&& cr0Ts ∧ c.vmcs .cr0Mask &&& cr0Ts = c.intcptCr0 &&& cr0Ts := by
  have unmasked : c.mskCr0 host &&& cr0Ts = 0#64 := by
    rw [mskCr0, setCr0, on, if_pos rfl, BitVec.or_zero, BitVec.or_comm, BitVec.and_comm]
    exact free
  rw [guise.mask, vmxGetGstCr0]
  generalize c.mskCr0 host = mask at unmasked ⊢
  constructor <;>
  · ext i
    have bit := congrArg (fun w : Word => w.getLsbD i) unmasked
    simp at bit ⊢
    grind

theorem forced_fpuCtrl (on : Bool) : Forced (c.fpuCtrl host on) :=
  forced_setGstCr0 (c := { c with fpuOn := on }) (c.vmxGetGstCr0 host)

theorem guise_create (obj : Word) (stale : Encoding → Word) : Guise host (create host obj stale) := by
  have same : (create host obj stale).visage = ((({ create host obj stale with vmcs := stale }.vmxSetMskCr0
      host).vmxSetMskCr4 host).vmxSetBmpExc).visage := by
    simp (disch := decide) only [create, vmxSetCpuPri, vmxSetCpuSec, visage_write32]
    rfl
  exact Guise.of_visage ⟨rfl, rfl⟩ same

end Frame

end CpuRegs

end Vmx

end Nova.Kernel
