/-
# Nova.Kernel.VmxControls — what a VMM can make of the VM-execution controls

`Vmcs::init` (`src/x86_64/vmx.cpp`) reads from the capability MSRs which controls a CPU
wants set and which it has, and adds those that the hypervisor wants.  The VMM requests
controls with `CTRL`; `INJ` opens and closes the two windows for injection, by editing
what the VMCS has.

If a guest does not run with a TPR shadow, its accesses to CR8 have to cause exits, and
`vmx_set_cpu_pri` forces them, but it looks at what the VMM has requested and not at what
comes out.  On a CPU without a TPR shadow a VMM that requests one gets neither the shadow
nor the exits (`cr8_exposed`), and a later `INJ` adds the exits, although it should only
touch the windows.  `controls_confined` is the condition under which all is well.
-/
import Nova.Kernel.ControlRegs

namespace Nova.Kernel.Vmx

open Nova.Theory.Words
open Nova.Theory.Runs
open Nova.Theory.Transfers

set_option autoImplicit false

/-! ## The capabilities of a CPU -/

/-- What `Vmcs::init` reads: MSRs, features, the command line, and whether there is memory for the root VMCS -/
structure Capabilities where
  vmx : Bool
  arat : Bool
  novpid : Bool
  memory : Bool
  featureControl : Word
  basic : Word
  trueCpu : Word
  ctrlCpuPri : Word
  ctrlCpuSec : Word
  ctrlCpuTer : Word
  eptVpid : Word
  cr0Fixed0 : Word
  cr0Fixed1 : Word
  cr4Fixed0 : Word
  cr4Fixed1 : Word

namespace CpuRegs

def cpuHlt : BitVec 32 := 1#32 <<< 7
def cpuMwait : BitVec 32 := 1#32 <<< 10
def cpuTertiary : BitVec 32 := 1#32 <<< 17
def cpuIo : BitVec 32 := 1#32 <<< 24
def cpuIoBitmap : BitVec 32 := 1#32 <<< 25
def cpuMsrBitmap : BitVec 32 := 1#32 <<< 28
def cpuSecondary : BitVec 32 := 1#32 <<< 31
def cpuEpt : BitVec 32 := 1#32 <<< 1
def cpuVpid : BitVec 32 := 1#32 <<< 5
def cpuUrg : BitVec 32 := 1#32 <<< 7
def cpuMbec : BitVec 32 := 1#32 <<< 22

end CpuRegs

open CpuRegs

def cr0Pe : Word := 1#64 <<< 0
def cr0Nw : Word := 1#64 <<< 29
def cr0Cd : Word := 1#64 <<< 30
def cr0Pg : Word := 1#64 <<< 31

namespace Capabilities

/-- A capability MSR has the controls that must be set in its lower half, and those that may be set in its upper half. -/
def lower (msr : Word) : BitVec 32 := msr.setWidth 32

def upper (msr : Word) : BitVec 32 := (msr >>> 32).setWidth 32

def hypCpuPri : BitVec 32 := cpuSecondary ||| cpuMsrBitmap ||| cpuIoBitmap ||| cpuIo ||| cpuTertiary ||| cpuHlt

def hypCpuSec : BitVec 32 := cpuMbec ||| cpuUrg ||| cpuVpid ||| cpuEpt

variable (k : Capabilities)

def vmxCpuPri : Word := if k.basic &&& 1#64 <<< 55 ≠ 0#64 then k.trueCpu else k.ctrlCpuPri

def hasCpuSec : Bool := upper k.vmxCpuPri &&& cpuSecondary ≠ 0#32

def hasCpuTer : Bool := upper k.vmxCpuPri &&& cpuTertiary ≠ 0#32

def vmxCpuSec : Word := if k.hasCpuSec then k.ctrlCpuSec else 0#64

def hasEpt : Bool := upper k.vmxCpuSec &&& cpuEpt ≠ 0#32

def hasUrg : Bool := upper k.vmxCpuSec &&& cpuUrg ≠ 0#32

def hasInvept : Bool := k.eptVpid &&& 1#64 <<< 20 ≠ 0#64

def hasInvvpid : Bool := k.eptVpid &&& 1#64 <<< 32 ≠ 0#64

/-- `Vmcs::init`, as far as it concerns guests; `none` if the CPU is left without VMX. -/
def init (xcr xss : Word) : Option Host :=
  if !k.vmx ∨ k.featureControl &&& 5#64 ≠ 5#64 then none
  else if !k.hasEpt ∨ !k.hasUrg then none
  else if !k.hasInvept then none
  else if !k.memory then none
  else some {
    cpuPriClr := upper k.vmxCpuPri
    cpuPriSet := lower k.vmxCpuPri ||| hypCpuPri ||| if k.arat then 0#32 else cpuMwait
    cpuSecClr := if !k.hasInvvpid ∨ k.novpid then upper k.vmxCpuSec &&& ~~~ cpuVpid else upper k.vmxCpuSec
    cpuSecSet := lower k.vmxCpuSec ||| hypCpuSec
    cpuTerClr := if k.hasCpuTer then k.ctrlCpuTer else 0#64
    cpuTerSet := 0#64
    fixCr0Set := k.cr0Fixed0 &&& ~~~ (cr0Pg ||| cr0Pe)
    fixCr0Clr := ~~~ k.cr0Fixed1 ||| cr0Cd ||| cr0Nw
    fixCr4Set := k.cr4Fixed0
    fixCr4Clr := ~~~ k.cr4Fixed1
    xcr := xcr
    xss := xss }

end Capabilities

/-! ## The controls in the VMCS -/

namespace CpuRegs

def pri (c : CpuRegs) : BitVec 32 := c.read32 .cpuControlsPri

def sec (c : CpuRegs) : BitVec 32 := c.read32 .cpuControlsSec

/-- What becomes of requested controls -/
def grantPri (host : Host) (val : BitVec 32) : BitVec 32 :=
  ((if val &&& cpuTprShadow = 0#32 then val ||| cpuCr8Load ||| cpuCr8Store else val) ||| host.cpuPriSet) &&& host.cpuPriClr

def grantSec (host : Host) (val : BitVec 32) : BitVec 32 := (val ||| host.cpuSecSet) &&& host.cpuSecClr

/-- `INJ` edits the windows. -/
def editWindows (info pri : BitVec 32) : BitVec 32 :=
  let val := if info &&& 0x1000#32 ≠ 0#32 then pri ||| cpuIntrWindow else pri &&& ~~~ cpuIntrWindow
  if info &&& 0x2000#32 ≠ 0#32 then val ||| cpuNmiWindow else val &&& ~~~ cpuNmiWindow

def controls (c : CpuRegs) : BitVec 32 × BitVec 32 := (c.pri, c.sec)

variable {host : Host} {u : UtcbArch} {c d : CpuRegs} {m : BitVec 32} {objects : Objects} {caps : Caps}

theorem controls_write {field : Encoding} (v : Word) (other : field ≠ .cpuControlsPri ∧ field ≠ .cpuControlsSec) :
    (c.write field v).controls = c.controls := by
  simp only [controls, pri, sec, read32, write, Function.update_of_ne other.1.symm, Function.update_of_ne other.2.symm]

theorem controls_write32 {field : Encoding} (v : BitVec 32) (other : field ≠ .cpuControlsPri ∧ field ≠ .cpuControlsSec) :
    (c.write32 field v).controls = c.controls := controls_write _ other

theorem controls_setCpuPri (val : BitVec 32) : (c.vmxSetCpuPri host val).controls = (grantPri host val, c.sec) := by
  simp [controls, pri, sec, read32, vmxSetCpuPri, write32, write, grantPri]

theorem controls_setCpuSec (val : BitVec 32) : (c.vmxSetCpuSec host val).controls = (c.pri, grantSec host val) := by
  simp [controls, pri, sec, read32, vmxSetCpuSec, write32, write, grantSec]

theorem saveCtrl_controls : (saveCtrl host u c).controls = (grantPri host u.ctrlPri, grantSec host u.ctrlSec) := by
  simp (disch := decide) only [saveCtrl, vmxSetCpuTer, controls_write, controls_write32, controls_setCpuSec]
  exact congrArg (fun pri => (pri, grantSec host u.ctrlSec)) (congrArg Prod.fst (controls_setCpuPri u.ctrlPri))

theorem saveInj_controls : (saveInj host u c).controls = (grantPri host (editWindows u.intrInfo c.pri), c.sec) := by
  simp (disch := decide) only [saveInj, controls_write32]
  exact controls_setCpuPri _

/-! ## Messages -/

/-- The items after `INJ` -/
def afterInj (host : Host) (u : UtcbArch) : List (BitVec 32 × (CpuRegs → CpuRegs)) :=
  [(Item.csSs, saveCsSs u), (Item.dsEs, saveDsEs u), (Item.fsGs, saveFsGs u), (Item.tr, saveTr u), (Item.ldtr, saveLdtr u),
    (Item.gdtr, saveGdtr u), (Item.idtr, saveIdtr u), (Item.pdpte, savePdpte u), (Item.cr, saveCr host u)] ++ after host u

theorem items_split_inj : items host u =
    before u ++ (Item.ctrl, saveCtrl host u) :: ([(Item.tpr, saveTpr u)] ++ (Item.inj, saveInj host u) :: afterInj host u) := rfl

theorem plain_controls : ∀ i ∈ before u ++ ([(Item.tpr, saveTpr u)] ++ afterInj host u), ∀ c : CpuRegs,
    (i.2 c).controls = c.controls := by
  simp only [before, afterInj, after, List.cons_append, List.nil_append, List.forall_mem_cons]
  refine ⟨fun c => ?_, fun c => ?_, fun c => ?_, fun c => ?_, fun c => ?_, fun c => ?_, fun c => ?_, fun c => ?_, fun c => ?_,
    fun c => ?_, fun c => ?_, fun c => ?_, fun c => ?_, fun c => ?_, fun c => ?_, fun c => ?_, fun c => ?_, fun c => ?_,
    fun c => ?_, fun c => ?_, fun c => ?_, fun c => ?_, List.forall_mem_nil _⟩
  all_goals
    simp (disch := decide) only [saveGpr0To7, saveGpr8To15, saveRflags, saveRip, saveSta, saveTpr, saveCsSs, saveDsEs, saveFsGs,
      saveTr, saveLdtr, saveGdtr, saveIdtr, savePdpte, saveCr, vmxSetGstCr0, vmxSetGstCr4, saveDr, saveXsave, saveSyscall,
      saveSysenter, savePat, saveEfer, saveKernelGsBase, saveSegment, controls_write, controls_write32]
  all_goals rfl

theorem saveVmx_controls (clean : m &&& Item.poison = 0#32) : (c.saveVmx host u objects caps m).2.controls =
    (take m (take m c (Item.ctrl, saveCtrl host u)) (Item.inj, saveInj host u)).controls := by
  have items : (c.saveItems host u m).controls =
      (take m (take m c (Item.ctrl, saveCtrl host u)) (Item.inj, saveInj host u)).controls := by
    refine transfer_two items_split_inj plain_controls (fun _ _ _ => ?_) fun s t same => ?_
    · rw [saveCtrl_controls, saveCtrl_controls]
    · simp only [controls, Prod.mk.injEq] at same
      rw [saveInj_controls, saveInj_controls, same.1, same.2]
  rw [← items]
  unfold saveVmx
  rw [if_neg (not_not.mpr clean)]
  dsimp only
  split
  · cases assigned : (c.saveItems host u m).assignSpaces u objects caps with
    | none => rfl
    | some d =>
        obtain ⟨-, rfl⟩ := assignSpaces_eq_some.mp assigned
        simp (disch := decide) only [writeSpaces, controls_write]
        rfl
  · rfl

theorem fpuCtrl_controls (on : Bool) : (c.fpuCtrl host on).controls = c.controls := by
  simp (disch := decide) only [fpuCtrl, vmxSetBmpExc, vmxSetMskCr0, vmxSetGstCr0, controls_write, controls_write32]
  rfl

theorem create_controls (obj : Word) (stale : Encoding → Word) :
    (create host obj stale).controls = (grantPri host 0#32, grantSec host 0#32) := by
  unfold create
  dsimp only
  rw [controls_setCpuSec]
  exact congrArg (fun pri => (pri, grantSec host 0#32)) (congrArg Prod.fst (controls_setCpuPri 0#32))

/-! ## What must hold -/

/-- The bits are all set. -/
def Includes (w bits : BitVec 32) : Prop := bits &&& w = bits

/-- Accesses to CR8 go to the shadow, or they cause exits. -/
def Cr8Guarded (pri : BitVec 32) : Prop := Includes pri cpuTprShadow ∨ Includes pri cpuCr8Load ∧ Includes pri cpuCr8Store

/-- What the hypervisor wants of the primary and of the secondary controls -/
def wantedPri (k : Capabilities) : BitVec 32 := Capabilities.hypCpuPri ||| if k.arat then 0#32 else cpuMwait

def wantedSec (k : Capabilities) : BitVec 32 :=
  if !k.hasInvvpid ∨ k.novpid then Capabilities.hypCpuSec &&& ~~~ cpuVpid else Capabilities.hypCpuSec

open Capabilities in
/-- The controls suit the CPU and the hypervisor. -/
structure Confined (k : Capabilities) (c : CpuRegs) : Prop where
  pri_set : Includes c.pri (lower k.vmxCpuPri &&& upper k.vmxCpuPri)
  pri_clear : c.pri &&& ~~~ upper k.vmxCpuPri = 0#32
  sec_set : Includes c.sec (lower k.vmxCpuSec &&& upper k.vmxCpuSec)
  sec_clear : c.sec &&& ~~~ upper k.vmxCpuSec = 0#32
  pri_wanted : Includes c.pri (wantedPri k &&& upper k.vmxCpuPri)
  sec_wanted : Includes c.sec (wantedSec k &&& upper k.vmxCpuSec)
  mandatory : Includes c.pri cpuSecondary ∧ Includes c.sec (cpuEpt ||| cpuUrg)
  cr8 : Cr8Guarded c.pri

def windows : BitVec 32 := cpuIntrWindow ||| cpuNmiWindow

/-- After the step the controls are confined, and `INJ` has changed none of them but the windows. -/
structure Governed (k : Capabilities) (host : Host) (c : CpuRegs) (a : Act) : Prop where
  confined : Confined k (step host a c)
  inj : ∀ u m objects caps, a = .reply u m objects caps →
    ((c.saveVmx host u objects caps m).2.pri ^^^ (c.saveVmx host u objects caps (m &&& ~~~ Item.inj)).2.pri) &&& ~~~ windows = 0#32

/-- The CPU grants what guards CR8: the shadow, if it is requested, or the exits, if they are requested or the shadow is not. -/
def Guards (host : Host) (val : BitVec 32) : Prop :=
  Includes host.cpuPriClr cpuTprShadow ∧ Includes (val ||| host.cpuPriSet) cpuTprShadow ∨
  Includes host.cpuPriClr (cpuCr8Load ||| cpuCr8Store) ∧
    (¬ Includes val cpuTprShadow ∨ Includes (val ||| host.cpuPriSet) (cpuCr8Load ||| cpuCr8Store))

/-- Every request for controls guards CR8. -/
def Prudent (host : Host) (_ : CpuRegs) : Act → Prop
  | .reply u m _ _ => m &&& Item.poison = 0#32 → m &&& Item.ctrl ≠ 0#32 → Guards host u.ctrlPri
  | _ => True

/-- No CPU without `INVVPID` demands VPIDs, and no user without `novpid` does without them. -/
def Flexible (k : Capabilities) : Prop :=
  (!k.hasInvvpid ∨ k.novpid) → Capabilities.lower k.vmxCpuSec &&& Capabilities.upper k.vmxCpuSec &&& cpuVpid = 0#32

/-! ## Bits -/

theorem includes_iff (w bits : BitVec 32) : Includes w bits ↔ ∀ i < 32, bits.getLsbD i = true → w.getLsbD i = true := by
  unfold Includes
  rw [BitVec.eq_of_getLsbD_eq_iff]
  refine forall_congr' fun i => forall_congr' fun _ => ?_
  rw [BitVec.getLsbD_and]
  cases bits.getLsbD i <;> simp

theorem outside_iff (w bits : BitVec 32) : w &&& ~~~ bits = 0#32 ↔ ∀ i < 32, w.getLsbD i = true → bits.getLsbD i = true := by
  rw [BitVec.eq_of_getLsbD_eq_iff]
  refine forall_congr' fun i => forall_congr' fun small => ?_
  rw [BitVec.getLsbD_and, BitVec.getLsbD_not, BitVec.getLsbD_zero]
  cases w.getLsbD i <;> simp [small]

theorem includes_bit (w : BitVec 32) {j : Nat} (small : j < 32) : Includes w (1#32 <<< j) ↔ w.getLsbD j = true := by
  rw [includes_iff]
  refine ⟨fun all => all j small ?_, fun set i _ own => ?_⟩
  · rw [Hazard.getLsbD_bit small]
    exact decide_eq_true rfl
  · rename_i inside
    rw [Hazard.getLsbD_bit inside, decide_eq_true_iff] at own
    exact own ▸ set

theorem includes_or (w a b : BitVec 32) : Includes w (a ||| b) ↔ Includes w a ∧ Includes w b := by
  simp only [includes_iff, BitVec.getLsbD_or, Bool.or_eq_true]
  exact ⟨fun all => ⟨fun i small set => all i small (.inl set), fun i small set => all i small (.inr set)⟩,
    fun ⟨left, right⟩ i small set => set.elim (left i small) (right i small)⟩

theorem grantPri_bit (host : Host) (val : BitVec 32) {i : Nat} (small : i < 32) : (grantPri host val).getLsbD i =
    ((val.getLsbD i || (!val.getLsbD 21 && decide (i = 19 ∨ i = 20)) || host.cpuPriSet.getLsbD i) && host.cpuPriClr.getLsbD i) := by
  have shadow : val &&& cpuTprShadow = 0#32 ↔ val.getLsbD 21 = false := by
    rw [← Bool.not_eq_true, ← and_bit_ne_zero val (i := 21) (by decide), not_not]
    rfl
  have exits : (cpuCr8Load ||| cpuCr8Store).getLsbD i = decide (i = 19 ∨ i = 20) := by
    rw [BitVec.getLsbD_or, cpuCr8Load, cpuCr8Store, Hazard.getLsbD_bit small, Hazard.getLsbD_bit small]
    simp [eq_comm]
  unfold grantPri
  rw [BitVec.getLsbD_and, BitVec.getLsbD_or]
  by_cases off : val.getLsbD 21 = false
  · rw [if_pos (shadow.mpr off), BitVec.or_assoc, BitVec.getLsbD_or, exits, off]
    rfl
  · rw [if_neg (mt shadow.mp off), Bool.eq_true_of_not_eq_false off]
    simp

theorem cr8_grant (host : Host) (val : BitVec 32) : Cr8Guarded (grantPri host val) ↔ Guards host val := by
  unfold Cr8Guarded Guards
  rw [includes_or, includes_or]
  simp only [cpuTprShadow, cpuCr8Load, cpuCr8Store, includes_bit _ (show 21 < 32 by decide), includes_bit _ (show 19 < 32 by decide),
    includes_bit _ (show 20 < 32 by decide), grantPri_bit host val (show 21 < 32 by decide),
    grantPri_bit host val (show 19 < 32 by decide), grantPri_bit host val (show 20 < 32 by decide), BitVec.getLsbD_or]
  grind

/-- Outside the windows an edit changes nothing. -/
theorem editWindows_bit (info pri : BitVec 32) {i : Nat} (small : i < 32) (other : windows.getLsbD i = false) :
    (editWindows info pri).getLsbD i = pri.getLsbD i := by
  have bits : i ≠ 2 ∧ i ≠ 22 := by
    rw [windows, BitVec.getLsbD_or, cpuIntrWindow, cpuNmiWindow, Hazard.getLsbD_bit small, Hazard.getLsbD_bit small,
      Bool.or_eq_false_iff, decide_eq_false_iff_not, decide_eq_false_iff_not] at other
    exact ⟨Ne.symm other.1, Ne.symm other.2⟩
  have intr : cpuIntrWindow.getLsbD i = false := by
    rw [cpuIntrWindow, Hazard.getLsbD_bit small]
    exact decide_eq_false (Ne.symm bits.1)
  have nmi : cpuNmiWindow.getLsbD i = false := by
    rw [cpuNmiWindow, Hazard.getLsbD_bit small]
    exact decide_eq_false (Ne.symm bits.2)
  unfold editWindows
  dsimp only
  split <;> split <;>
    simp only [BitVec.getLsbD_or, BitVec.getLsbD_and, BitVec.getLsbD_not, intr, nmi, small, decide_true, Bool.not_false,
      Bool.or_false, Bool.and_true]

/-! ## Steps -/

/-- The controls are some that have been granted. -/
structure Settled (host : Host) (c : CpuRegs) : Prop where
  pri : Includes c.pri (host.cpuPriSet &&& host.cpuPriClr)
  priClr : c.pri &&& ~~~ host.cpuPriClr = 0#32
  sec : Includes c.sec (host.cpuSecSet &&& host.cpuSecClr)
  secClr : c.sec &&& ~~~ host.cpuSecClr = 0#32

theorem grantPri_settled (host : Host) (val : BitVec 32) : Includes (grantPri host val) (host.cpuPriSet &&& host.cpuPriClr) ∧
    grantPri host val &&& ~~~ host.cpuPriClr = 0#32 := by
  refine ⟨(includes_iff _ _).mpr fun i small set => ?_, (outside_iff _ _).mpr fun i small set => ?_⟩
  · rw [BitVec.getLsbD_and, Bool.and_eq_true] at set
    rw [grantPri_bit host val small, set.1, set.2, Bool.or_true, Bool.and_true]
  · rw [grantPri_bit host val small, Bool.and_eq_true] at set
    exact set.2

theorem grantSec_settled (host : Host) (val : BitVec 32) : Includes (grantSec host val) (host.cpuSecSet &&& host.cpuSecClr) ∧
    grantSec host val &&& ~~~ host.cpuSecClr = 0#32 := by
  refine ⟨(includes_iff _ _).mpr fun i small set => ?_, (outside_iff _ _).mpr fun i small set => ?_⟩
  · rw [BitVec.getLsbD_and, Bool.and_eq_true] at set
    rw [grantSec, BitVec.getLsbD_and, BitVec.getLsbD_or, set.1, set.2, Bool.or_true, Bool.and_true]
  · rw [grantSec, BitVec.getLsbD_and, Bool.and_eq_true] at set
    exact set.2

theorem Settled.of_controls (settled : Settled host c) (same : d.controls = c.controls) : Settled host d := by
  simp only [controls, Prod.mk.injEq] at same
  refine ⟨?_, ?_, ?_, ?_⟩
  · rw [same.1]
    exact settled.pri
  · rw [same.1]
    exact settled.priClr
  · rw [same.2]
    exact settled.sec
  · rw [same.2]
    exact settled.secClr

theorem settled_granted {pri sec : BitVec 32} (is : c.controls = (grantPri host pri, grantSec host sec)) : Settled host c := by
  simp only [controls, Prod.mk.injEq] at is
  refine ⟨?_, ?_, ?_, ?_⟩
  · rw [is.1]
    exact (grantPri_settled host pri).1
  · rw [is.1]
    exact (grantPri_settled host pri).2
  · rw [is.2]
    exact (grantSec_settled host sec).1
  · rw [is.2]
    exact (grantSec_settled host sec).2

theorem Settled.saveInj (settled : Settled host c) : Settled host (saveInj host u c) := by
  have is := @saveInj_controls host u c
  simp only [controls, Prod.mk.injEq] at is
  refine ⟨?_, ?_, ?_, ?_⟩
  · rw [is.1]
    exact (grantPri_settled host _).1
  · rw [is.1]
    exact (grantPri_settled host _).2
  · rw [is.2]
    exact settled.sec
  · rw [is.2]
    exact settled.secClr

theorem Settled.step (settled : Settled host c) (a : Act) : Settled host (step host a c) := by
  cases a with
  | guestCr0 v => exact settled.of_controls (controls_write _ (by decide))
  | guestCr4 v => exact settled.of_controls (controls_write _ (by decide))
  | fpuCtrl on => exact settled.of_controls (fpuCtrl_controls on)
  | reply u m objects caps =>
      change Settled host (c.saveVmx host u objects caps m).2
      by_cases clean : m &&& Item.poison = 0#32
      · refine Settled.of_controls ?_ (saveVmx_controls clean)
        have ctrl : Settled host (take m c (Item.ctrl, saveCtrl host u)) := by
          unfold take
          split
          · exact settled_granted saveCtrl_controls
          · exact settled
        generalize take m c (Item.ctrl, saveCtrl host u) = d at ctrl ⊢
        unfold take
        split
        · exact ctrl.saveInj
        · exact ctrl
      · rw [saveVmx_poison clean]
        exact settled

/-- Where CR8 is guarded, an edit of the windows reaches nothing else. -/
theorem edit_windows (settled : Settled host c) (guarded : Cr8Guarded c.pri) (info : BitVec 32) :
    (grantPri host (editWindows info c.pri) ^^^ c.pri) &&& ~~~ windows = 0#32 := by
  rw [outside_iff]
  intro i small differs
  by_contra other
  rw [Bool.not_eq_true] at other
  have shadow : (editWindows info c.pri).getLsbD 21 = c.pri.getLsbD 21 := editWindows_bit info c.pri (by decide) (by decide)
  rw [BitVec.getLsbD_xor, grantPri_bit host _ small, editWindows_bit info c.pri small other, shadow] at differs
  have set := (includes_iff _ _).mp settled.pri i small
  have clr := (outside_iff _ _).mp settled.priClr i small
  rw [BitVec.getLsbD_and, Bool.and_eq_true] at set
  have exits : c.pri.getLsbD 21 = true ∨ c.pri.getLsbD 19 = true ∧ c.pri.getLsbD 20 = true := by
    rw [Cr8Guarded, cpuTprShadow, cpuCr8Load, cpuCr8Store, includes_bit _ (by decide), includes_bit _ (by decide),
      includes_bit _ (by decide)] at guarded
    exact guarded
  have forced : (!c.pri.getLsbD 21 && decide (i = 19 ∨ i = 20)) = true → c.pri.getLsbD i = true := by
    intro force
    rw [Bool.and_eq_true, decide_eq_true_iff, Bool.not_eq_true'] at force
    rcases exits with on | ⟨load, store⟩
    · rw [on] at force
      exact absurd force.1 (by decide)
    · rcases force.2 with rfl | rfl
      · exact load
      · exact store
  generalize (!c.pri.getLsbD 21 && decide (i = 19 ∨ i = 20)) = force at forced differs
  cases p : c.pri.getLsbD i <;> cases s : host.cpuPriSet.getLsbD i <;> cases k : host.cpuPriClr.getLsbD i <;> cases force <;>
    simp_all

/-! ## The whole run -/

open Capabilities in
/-- What an accepted CPU has and gets -/
structure Accepted (k : Capabilities) (host : Host) : Prop where
  ept : Includes (upper k.vmxCpuSec) cpuEpt
  urg : Includes (upper k.vmxCpuSec) cpuUrg
  secondary : Includes (upper k.vmxCpuPri) cpuSecondary
  priClr : host.cpuPriClr = upper k.vmxCpuPri
  priSet : host.cpuPriSet = lower k.vmxCpuPri ||| wantedPri k
  secSet : host.cpuSecSet = lower k.vmxCpuSec ||| hypCpuSec
  secClr : host.cpuSecClr = if !k.hasInvvpid ∨ k.novpid then upper k.vmxCpuSec &&& ~~~ cpuVpid else upper k.vmxCpuSec

theorem includes_of_ne {w : BitVec 32} {j : Nat} (small : j < 32) (some : w &&& 1#32 <<< j ≠ 0#32) : Includes w (1#32 <<< j) :=
  (includes_bit w small).mpr ((and_bit_ne_zero w small).mp some)

theorem accepted_of_init {k : Capabilities} {xcr xss : Word} (init : k.init xcr xss = some host) : Accepted k host := by
  unfold Capabilities.init at init
  split at init
  · cases init
  · split at init
    · cases init
    · rename_i mandatory
      split at init
      · cases init
      · split at init
        · cases init
        · obtain rfl := Option.some.inj init
          simp only [not_or, Bool.not_eq_true', Bool.not_eq_false] at mandatory
          obtain ⟨ept, urg⟩ := mandatory
          have ept := of_decide_eq_true ept
          refine ⟨includes_of_ne (j := 1) (by decide) ept, includes_of_ne (j := 7) (by decide) (of_decide_eq_true urg),
            ?_, rfl, BitVec.or_assoc _ _ _, rfl, rfl⟩
          -- without secondary controls there is no EPT
          by_contra none
          have off : k.hasCpuSec = false := by
            rw [Capabilities.hasCpuSec, decide_eq_false_iff_not]
            exact fun on => none (includes_of_ne (j := 31) (by decide) on)
          rw [Capabilities.vmxCpuSec, off, if_neg Bool.false_ne_true] at ept
          exact ept (by decide)

/-- `VPID` is the one control that the hypervisor gives up. -/
theorem without_vpid {off : Prop} [Decidable off] (w : BitVec 32) {i : Nat} (small : i < 32) :
    (if off then w &&& ~~~ cpuVpid else w).getLsbD i = true ↔ w.getLsbD i = true ∧ ¬(off ∧ i = 5) := by
  split
  · rename_i gone
    rw [BitVec.getLsbD_and, BitVec.getLsbD_not, cpuVpid, Hazard.getLsbD_bit small, decide_eq_true small, Bool.true_and,
      Bool.and_eq_true, Bool.not_eq_true', decide_eq_false_iff_not, and_iff_right gone]
    exact and_congr_right fun _ => not_congr eq_comm
  · rename_i stays
    exact (and_iff_left fun gone => stays gone.1).symm

theorem secClr_bit {k : Capabilities} (accepted : Accepted k host) {i : Nat} (small : i < 32) :
    host.cpuSecClr.getLsbD i = true ↔ (Capabilities.upper k.vmxCpuSec).getLsbD i = true ∧
      ¬((!k.hasInvvpid ∨ k.novpid) ∧ i = 5) := by
  rw [accepted.secClr]
  exact without_vpid _ small

theorem wantedSec_bit {k : Capabilities} {i : Nat} (small : i < 32) :
    (wantedSec k).getLsbD i = true ↔ Capabilities.hypCpuSec.getLsbD i = true ∧ ¬((!k.hasInvvpid ∨ k.novpid) ∧ i = 5) :=
  without_vpid _ small

/-- Settled controls of an accepted CPU are confined, up to what the theorem is about. -/
theorem confined_iff {k : Capabilities} (accepted : Accepted k host) (settled : Settled host c) :
    Confined k c ↔ Flexible k ∧ Cr8Guarded c.pri := by
  have pri := (includes_iff _ _).mp settled.pri
  have sec := (includes_iff _ _).mp settled.sec
  have priClr := (outside_iff _ _).mp settled.priClr
  have secClr := (outside_iff _ _).mp settled.secClr
  simp only [BitVec.getLsbD_and, Bool.and_eq_true, accepted.priSet, accepted.priClr, accepted.secSet, BitVec.getLsbD_or,
    Bool.or_eq_true] at pri priClr sec
  have wanted (i : Nat) (small : i < 32) (hyp : (wantedPri k &&& Capabilities.upper k.vmxCpuPri).getLsbD i = true) :
      c.pri.getLsbD i = true := by
    rw [BitVec.getLsbD_and, Bool.and_eq_true] at hyp
    exact pri i small ⟨.inr hyp.1, hyp.2⟩
  have wantedSec (i : Nat) (small : i < 32) (hyp : (wantedSec k &&& Capabilities.upper k.vmxCpuSec).getLsbD i = true) :
      c.sec.getLsbD i = true := by
    rw [BitVec.getLsbD_and, Bool.and_eq_true, wantedSec_bit small] at hyp
    exact sec i small ⟨.inr hyp.1.1, (secClr_bit accepted small).mpr ⟨hyp.2, hyp.1.2⟩⟩
  refine ⟨fun confined => ⟨fun off => ?_, confined.cr8⟩, fun ⟨flexible, guarded⟩ => ⟨?_, ?_, ?_, ?_, ?_, ?_, ⟨?_, ?_⟩, guarded⟩⟩
  · -- a CPU that demands VPIDs without `INVVPID` does not get them
    have must := (includes_iff _ _).mp confined.sec_set
    by_contra demanded
    have set := (and_bit_ne_zero _ (i := 5) (by decide)).mp demanded
    exact ((secClr_bit accepted (by decide)).mp (secClr 5 (by decide) (must 5 (by decide) set))).2 ⟨off, rfl⟩
  · refine (includes_iff _ _).mpr fun i small set => ?_
    rw [BitVec.getLsbD_and, Bool.and_eq_true] at set
    exact pri i small ⟨.inl set.1, set.2⟩
  · exact (outside_iff _ _).mpr priClr
  · refine (includes_iff _ _).mpr fun i small set => ?_
    have both := set
    rw [BitVec.getLsbD_and, Bool.and_eq_true] at both
    refine sec i small ⟨.inl both.1, (secClr_bit accepted small).mpr ⟨both.2, fun ⟨off, vpid⟩ => ?_⟩⟩
    subst vpid
    exact (and_bit_ne_zero _ (i := 5) (by decide)).mpr set (flexible off)
  · exact (outside_iff _ _).mpr fun i small set => ((secClr_bit accepted small).mp (secClr i small set)).1
  · exact (includes_iff _ _).mpr wanted
  · exact (includes_iff _ _).mpr wantedSec
  · refine (includes_bit _ (j := 31) (by decide)).mpr (wanted 31 (by decide) ?_)
    rw [BitVec.getLsbD_and, (includes_bit _ (j := 31) (by decide)).mp accepted.secondary, Bool.and_true, wantedPri, BitVec.getLsbD_or,
      show Capabilities.hypCpuPri.getLsbD 31 = true by decide, Bool.true_or]
  · refine (includes_or _ _ _).mpr ⟨(includes_bit _ (j := 1) (by decide)).mpr (wantedSec 1 (by decide) ?_),
      (includes_bit _ (j := 7) (by decide)).mpr (wantedSec 7 (by decide) ?_)⟩
    · rw [BitVec.getLsbD_and, (includes_bit _ (j := 1) (by decide)).mp accepted.ept, Bool.and_true]
      exact (wantedSec_bit (by decide)).mpr ⟨by decide, by omega⟩
    · rw [BitVec.getLsbD_and, (includes_bit _ (j := 7) (by decide)).mp accepted.urg, Bool.and_true]
      exact (wantedSec_bit (by decide)).mpr ⟨by decide, by omega⟩

theorem cr8_of_windows {p q : BitVec 32} (differ : (p ^^^ q) &&& ~~~ windows = 0#32) (guarded : Cr8Guarded p) : Cr8Guarded q := by
  rw [outside_iff] at differ
  have same (i : Nat) (small : i < 32) (other : windows.getLsbD i = false) (set : p.getLsbD i = true) : q.getLsbD i = true := by
    by_contra clear
    have inside := differ i small (by rw [BitVec.getLsbD_xor, set, Bool.eq_false_of_not_eq_true clear]; rfl)
    rw [other] at inside
    cases inside
  rw [Cr8Guarded, cpuTprShadow, cpuCr8Load, cpuCr8Store, includes_bit _ (by decide), includes_bit _ (by decide),
    includes_bit _ (by decide)] at guarded ⊢
  rcases guarded with shadow | ⟨load, store⟩
  · exact .inl (same 21 (by decide) (by decide) shadow)
  · exact .inr ⟨same 19 (by decide) (by decide) load, same 20 (by decide) (by decide) store⟩

/-- The registers after `CTRL` -/
def afterCtrl (host : Host) (u : UtcbArch) (m : BitVec 32) (c : CpuRegs) : CpuRegs := take m c (Item.ctrl, saveCtrl host u)

theorem reply_pri (clean : m &&& Item.poison = 0#32) : (c.saveVmx host u objects caps m).2.pri =
    if m &&& Item.inj ≠ 0#32 then grantPri host (editWindows u.intrInfo (afterCtrl host u m c).pri) else (afterCtrl host u m c).pri := by
  have is := congrArg Prod.fst (@saveVmx_controls host u c m objects caps clean)
  change (c.saveVmx host u objects caps m).2.pri = _ at is
  rw [is]
  split
  · rename_i on
    rw [take_selected on]
    exact congrArg Prod.fst saveInj_controls
  · rename_i off
    rw [take_unselected (not_not.mp off)]
    rfl

/-- Without `INJ` -/
theorem reply_pri_without (clean : m &&& Item.poison = 0#32) :
    (c.saveVmx host u objects caps (m &&& ~~~ Item.inj)).2.pri = (afterCtrl host u m c).pri := by
  have poison : m &&& ~~~ Item.inj &&& Item.poison = 0#32 := by
    rw [BitVec.and_assoc, show ~~~ Item.inj &&& Item.poison = Item.poison by decide, clean]
  have inj : m &&& ~~~ Item.inj &&& Item.inj = 0#32 := by
    rw [BitVec.and_assoc, show ~~~ Item.inj &&& Item.inj = 0#32 by decide, BitVec.and_zero]
  have ctrl : m &&& ~~~ Item.inj &&& Item.ctrl = m &&& Item.ctrl := by
    rw [BitVec.and_assoc, show ~~~ Item.inj &&& Item.ctrl = Item.ctrl by decide]
  rw [reply_pri poison, if_neg (not_not.mpr inj)]
  unfold afterCtrl take
  rw [ctrl]

theorem Settled.afterCtrl (settled : Settled host c) : Settled host (afterCtrl host u m c) := by
  unfold CpuRegs.afterCtrl take
  split
  · exact settled_granted saveCtrl_controls
  · exact settled

/-- Requests that guard CR8 are what it takes; the rest is the hypervisor's work. -/
theorem governed_iff {k : Capabilities} (accepted : Accepted k host) (flexible : Flexible k) (settled : Settled host c)
    (guarded : Cr8Guarded c.pri) (a : Act) :
    (Governed k host c a ↔ Prudent host c a) ∧ (Prudent host c a → Cr8Guarded (step host a c).pri) := by
  have confined (d : CpuRegs) (settled : Settled host d) (guarded : Cr8Guarded d.pri) : Confined k d :=
    (confined_iff accepted settled).mpr ⟨flexible, guarded⟩
  have other (same : (step host a c).controls = c.controls) : Cr8Guarded (step host a c).pri := by
    rw [show (step host a c).pri = c.pri from congrArg Prod.fst same]
    exact guarded
  cases a with
  | guestCr0 v =>
      have same := other (controls_write _ (by decide))
      exact ⟨⟨fun _ => trivial, fun _ => ⟨confined _ (settled.step _) same, nofun⟩⟩, fun _ => same⟩
  | guestCr4 v =>
      have same := other (controls_write _ (by decide))
      exact ⟨⟨fun _ => trivial, fun _ => ⟨confined _ (settled.step _) same, nofun⟩⟩, fun _ => same⟩
  | fpuCtrl on =>
      have same := other (fpuCtrl_controls on)
      exact ⟨⟨fun _ => trivial, fun _ => ⟨confined _ (settled.step _) same, nofun⟩⟩, fun _ => same⟩
  | reply u m objects caps =>
      change (_ ↔ _) ∧ (_ → Cr8Guarded (c.saveVmx host u objects caps m).2.pri)
      by_cases clean : m &&& Item.poison = 0#32
      · have request (on : m &&& Item.ctrl ≠ 0#32) : (afterCtrl host u m c).pri = grantPri host u.ctrlPri := by
          rw [afterCtrl, take_selected on]
          exact congrArg Prod.fst saveCtrl_controls
        have granted (prudent : Prudent host c (.reply u m objects caps)) : Cr8Guarded (afterCtrl host u m c).pri := by
          by_cases on : m &&& Item.ctrl = 0#32
          · rw [afterCtrl, take_unselected on]
            exact guarded
          · rw [request on]
            exact (cr8_grant host u.ctrlPri).mpr (prudent clean on)
        have windows (prudent : Prudent host c (.reply u m objects caps)) :
            ((c.saveVmx host u objects caps m).2.pri ^^^ (afterCtrl host u m c).pri) &&& ~~~ windows = 0#32 := by
          rw [reply_pri clean]
          split
          · exact edit_windows settled.afterCtrl (granted prudent) u.intrInfo
          · rw [BitVec.xor_self, BitVec.zero_and]
        have after (prudent : Prudent host c (.reply u m objects caps)) : Cr8Guarded (c.saveVmx host u objects caps m).2.pri := by
          refine cr8_of_windows ?_ (granted prudent)
          rw [BitVec.xor_comm]
          exact windows prudent
        refine ⟨⟨fun governed _ on => ?_, fun prudent => ⟨confined _ (settled.step _) (after prudent), ?_⟩⟩, after⟩
        · have differ := governed.inj u m objects caps rfl
          rw [reply_pri_without clean] at differ
          rw [← cr8_grant, ← request on]
          exact cr8_of_windows differ governed.confined.cr8
        · intro v n objs held same
          obtain ⟨rfl, rfl, rfl, rfl⟩ := Act.reply.inj same
          rw [reply_pri_without clean]
          exact windows prudent
      · have same : c.saveVmx host u objects caps m = (false, c) := saveVmx_poison clean
        have stays : Cr8Guarded (c.saveVmx host u objects caps m).2.pri := by
          rw [same]
          exact guarded
        refine ⟨⟨fun _ soiled => absurd soiled clean, fun _ => ⟨confined _ (settled.step _) stays, ?_⟩⟩, fun _ => stays⟩
        intro v n objs held is
        obtain ⟨rfl, rfl, rfl, rfl⟩ := Act.reply.inj is
        have poison : m &&& ~~~ Item.inj &&& Item.poison ≠ 0#32 := by
          rw [BitVec.and_assoc, show ~~~ Item.inj &&& Item.poison = Item.poison by decide]
          exact clean
        rw [same, saveVmx_poison poison, BitVec.xor_self, BitVec.zero_and]

/-- **Confinement of the controls.**  For every CPU that `Vmcs::init` accepts and every run of a virtual CPU, the controls
suit the CPU and the hypervisor after every step, CR8 is guarded and `INJ` changes only the windows, exactly if the CPU
has exits for CR8 (or a shadow at all times), VPIDs can be done without where there is no `INVVPID`, and the VMM requests
no shadow that the CPU does not have (unless it requests the exits as well). -/
theorem controls_confined (k : Capabilities) (xcr xss : Word) (host : Host) (init : k.init xcr xss = some host) (obj : Word)
    (stale : Encoding → Word) (acts : List Act) :
    (Confined k (create host obj stale) ∧ Along (step host) (Governed k host) (create host obj stale) acts) ↔
      Guards host 0#32 ∧ Flexible k ∧ Along (step host) (Prudent host) (create host obj stale) acts := by
  have accepted := accepted_of_init init
  have settled : Settled host (create host obj stale) := settled_granted (create_controls obj stale)
  have start : Cr8Guarded (create host obj stale).pri ↔ Guards host 0#32 := by
    rw [← cr8_grant, show (create host obj stale).pri = grantPri host 0#32 from congrArg Prod.fst (create_controls obj stale)]
  have along (flexible : Flexible k) (guarded : Cr8Guarded (create host obj stale).pri) :=
    Along.iff (I := fun c => Settled host c ∧ Cr8Guarded c.pri) (G := Prudent host) (R := Governed k host)
      (fun s a inv prudent => ⟨inv.1.step a, (governed_iff accepted flexible inv.1 inv.2 a).2 prudent⟩)
      (fun s a inv => (governed_iff accepted flexible inv.1 inv.2 a).1) acts (create host obj stale) ⟨settled, guarded⟩
  rw [confined_iff accepted settled]
  refine ⟨fun ⟨⟨flexible, guarded⟩, governed⟩ => ?_, fun ⟨guards, flexible, prudent⟩ => ?_⟩
  · exact ⟨start.mp guarded, flexible, (along flexible guarded).mp governed⟩
  · have guarded := start.mpr guards
    exact ⟨⟨flexible, guarded⟩, (along flexible guarded).mpr prudent⟩

/-! ## A CPU without a TPR shadow -/

def shadowless : Capabilities where
  vmx := true
  arat := true
  novpid := false
  memory := true
  featureControl := 5#64
  basic := 1#64 <<< 55
  trueCpu := 0xffd9fffe04006172#64
  ctrlCpuPri := 0xffd9fffe0401e172#64
  ctrlCpuSec := 0x553cfe00000000#64
  ctrlCpuTer := 0#64
  eptVpid := 0xf0106334141#64
  cr0Fixed0 := 0x80000021#64
  cr0Fixed1 := 0xffffffff#64
  cr4Fixed0 := 0x2000#64
  cr4Fixed1 := 0x3767ff#64

def shadowlessHost : Host := (shadowless.init 7#64 0#64).get rfl

/-- The VMM requests a TPR shadow. -/
def requestShadow : List Act := [.reply { (default : UtcbArch) with ctrlPri := cpuTprShadow } Item.ctrl noObjects fun _ => .null]

/-- `Vmcs::init` accepts the CPU, and after the request neither a shadow nor exits guard CR8. -/
theorem cr8_exposed : shadowless.init 7#64 0#64 = some shadowlessHost ∧
    ¬(Confined shadowless (create shadowlessHost 0#64 fun _ => 0#64) ∧
      Along (step shadowlessHost) (Governed shadowless shadowlessHost) (create shadowlessHost 0#64 fun _ => 0#64) requestShadow) := by
  refine ⟨rfl, fun ⟨_, along⟩ => ?_⟩
  have exposed : ¬ Cr8Guarded (requestShadow.foldl (fun c a => step shadowlessHost a c) (create shadowlessHost 0#64 fun _ => 0#64)).pri := by
    unfold Cr8Guarded Includes
    decide +kernel
  exact exposed along.1.confined.cr8

theorem controls_confined_shadowless :
    (Confined shadowless (create shadowlessHost 0#64 fun _ => 0#64) ∧
      Along (step shadowlessHost) (Governed shadowless shadowlessHost) (create shadowlessHost 0#64 fun _ => 0#64) requestShadow) ↔
    Guards shadowlessHost 0#32 ∧ Flexible shadowless ∧
      Along (step shadowlessHost) (Prudent shadowlessHost) (create shadowlessHost 0#64 fun _ => 0#64) requestShadow :=
  controls_confined shadowless 7#64 0#64 shadowlessHost rfl 0#64 (fun _ => 0#64) requestShadow

end CpuRegs

end Nova.Kernel.Vmx
