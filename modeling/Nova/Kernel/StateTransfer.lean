/-
# Nova.Kernel.StateTransfer — messages about an exception or VM exit, there and back

`load_vmx` and `save_vmx` as a whole, with the items that go only one way, and `load_exc`
and `save_exc`, which do the same for the registers of a thread that raised an exception.

`VmxTransfer` and `ExcTransfer` say what a VMM can rely on; `state_transfer` is that it can.
-/
import Nova.Kernel.VmxTransfer

namespace Nova.Kernel.Vmx

open Nova.Theory.Transfers
open Nova.Theory.Words

set_option autoImplicit false

/-! ## What only a VMM writes, and what it only reads -/

/-- The registers and controls of a virtual CPU that are not reported back; `rest` is what no message changes. -/
inductive Control where
  | instLen | ctrl | pri | tpr | inj | spaces | rest

namespace Control

/-- The items that change it -/
def mask : Control → BitVec 32
  | instLen => Item.rip
  | ctrl => Item.ctrl
  | pri => Item.ctrl ||| Item.inj
  | tpr => Item.tpr
  | inj => Item.inj
  | spaces => Item.spaces
  | rest => 0#32

@[reducible] def Regs : Control → Type
  | ctrl => Word × Word × BitVec 32
  | spaces => Word × Word × Word × BitVec 32
  | rest => Bool × Word × Word
  | instLen | pri | tpr | inj => Unit

def regs : (k : Control) → CpuRegs → k.Regs
  | ctrl, c => (c.intcptCr0, c.intcptCr4, c.intcptExc)
  | spaces, c => (c.gst, c.pio, c.msr, c.hazard)
  | rest, c => (c.fpuOn, c.ep, c.obj)
  | instLen, _ => ()
  | pri, _ => ()
  | tpr, _ => ()
  | inj, _ => ()

def encodings : Control → List Encoding
  | instLen => [.entInstLen]
  | ctrl => [.cr0Mask, .cr4Mask, .bitmapExc, .cpuControlsSec, .cpuControlsTer, .pfErrorMask, .pfErrorMatch]
  | pri => [.cpuControlsPri]
  | tpr => [.tprThreshold]
  | inj => [.injEventIdent, .injEventError]
  | spaces => [.eptp, .bitmapIoA, .bitmapIoB, .bitmapMsr]
  | rest =>
      [.exiInstLen, .exiInstInfo, .exiQualification, .guestLinearAddress, .guestPhysicalAddress, .exiEventIdent, .exiEventError,
        .orgEventIdent, .orgEventError]

def view (k : Control) (c : CpuRegs) : k.Regs × List Word := (k.regs c, k.encodings.map c.vmcs)

theorem view_write (k : Control) (c : CpuRegs) {field : Encoding} (v : Word) (other : field ∉ k.encodings) :
    k.view (c.write field v) = k.view c := by
  refine Prod.ext ?_ (List.map_congr_left fun e member => ?_)
  · cases k <;> rfl
  · have apart : e ≠ field := fun same => other (same ▸ member)
    exact Function.update_of_ne apart v c.vmcs

theorem view_write32 (k : Control) (c : CpuRegs) {field : Encoding} (v : BitVec 32) (other : field ∉ k.encodings) :
    k.view (c.write32 field v) = k.view c := view_write k c _ other

variable {host : Host} {u : UtcbArch} {c : CpuRegs}

theorem frames (k : Control) : Frames (CpuRegs.items host u) k.view k.mask := by
  unfold Frames
  simp only [CpuRegs.items, List.forall_mem_cons]
  cases k
  all_goals
    refine ⟨?_, ?_, ?_, ?_, ?_, ?_, ?_, ?_, ?_, ?_, ?_, ?_, ?_, ?_, ?_, ?_, ?_, ?_, ?_, ?_, ?_, ?_, ?_, ?_, nofun⟩
  all_goals
    first
    | exact .inl (by decide)
    | refine .inr fun c => ?_
      -- a register outside the VMCS, or writes to fields that are not its own
      simp (disch := decide) only [CpuRegs.saveGpr0To7, CpuRegs.saveRflags, CpuRegs.saveRip, CpuRegs.saveSta, CpuRegs.saveTpr,
        CpuRegs.saveCtrl, CpuRegs.saveInj, CpuRegs.saveSegment, CpuRegs.saveCsSs, CpuRegs.saveDsEs, CpuRegs.saveFsGs, CpuRegs.saveTr,
        CpuRegs.saveLdtr, CpuRegs.saveGdtr, CpuRegs.saveIdtr, CpuRegs.savePdpte, CpuRegs.saveCr, CpuRegs.vmxSetGstCr0,
        CpuRegs.vmxSetGstCr4, CpuRegs.saveDr, CpuRegs.saveSysenter, CpuRegs.savePat, CpuRegs.saveEfer, CpuRegs.vmxSetCpuPri,
        CpuRegs.vmxSetCpuSec, CpuRegs.vmxSetCpuTer, CpuRegs.vmxSetMskCr0, CpuRegs.vmxSetMskCr4, CpuRegs.vmxSetBmpExc,
        view_write, view_write32]
      try rfl
    | exact .inr fun _ => rfl

end Control

/-- The fields of the UTCB that are no item's, or are only read; `rest` is what no item loads. -/
inductive Report where
  | inst | qual | inj | rest

namespace Report

@[reducible] def Data : Report → Type
  | inst => BitVec 32 × BitVec 32
  | qual => Word × Word × Word
  | inj => BitVec 32 × BitVec 32 × BitVec 32 × BitVec 32
  | rest => (BitVec 32 × BitVec 32 × Word) × (Word × Word × BitVec 32) × (BitVec 32 × BitVec 32 × BitVec 32) × Word × Word × Word

def field : (r : Report) → UtcbArch → r.Data
  | inst, u => (u.instLen, u.instInfo)
  | qual, u => (u.qual0, u.qual1, u.qual2)
  | inj, u => (u.intrInfo, u.intrErrc, u.vectInfo, u.vectErrc)
  | rest, u =>
      ((u.ctrlPri, u.ctrlSec, u.ctrlTer), (u.intcptCr0, u.intcptCr4, u.intcptExc), (u.pfeMask, u.pfeMatch, u.tprThreshold),
        u.selGst, u.selPio, u.selMsr)

/-- The items of `load_vmx` that change it -/
def mask : Report → BitVec 32
  | inst => Item.rip
  | qual => Item.qual
  | inj => Item.inj
  | rest => 0#32

theorem field_loadInj (r : Report) (other : r ≠ inj) (c : CpuRegs) (u : UtcbArch) : r.field (u.loadInj c) = r.field u := by
  unfold UtcbArch.loadInj
  split
  · cases r <;> first | rfl | exact absurd rfl other
  · cases r <;> first | rfl | exact absurd rfl other

theorem frames (r : Report) (host : Host) (c : CpuRegs) : Frames (UtcbArch.items host c) r.field r.mask := by
  unfold Frames
  simp only [UtcbArch.items, List.forall_mem_cons]
  cases r
  all_goals
    refine ⟨?_, ?_, ?_, ?_, ?_, ?_, ?_, ?_, ?_, ?_, ?_, ?_, ?_, ?_, ?_, ?_, ?_, ?_, ?_, ?_, ?_, ?_, ?_, nofun⟩
  all_goals
    first
    | exact .inl (by decide)
    | exact .inr fun _ => rfl
    | exact .inr (field_loadInj _ (by nofun) c)

end Report

/-! ## A message as a whole -/

section Whole

variable {host : Host} {objects : Objects} {caps : Caps} {m : BitVec 32} {u : UtcbArch} {c d : CpuRegs}

theorem saveItems_eq : c.saveItems host u m = transfer m (CpuRegs.items host u) c := rfl

/-- `SPACES` touches none of the other items … -/
theorem view_spaces (p : Part) (assigned : c.assignSpaces u objects caps = some d) :
    p.view (d.writeSpaces objects) = p.view c := by
  have free : ∀ e, Part.owner e = none → Part.owner e ≠ some p := fun e own same => nomatch own.symm.trans same
  obtain ⟨-, rfl⟩ := CpuRegs.assignSpaces_eq_some.mp assigned
  simp (disch := exact free _ rfl) only [CpuRegs.writeSpaces, Part.view_write]
  cases p <;> rfl

/-- … and no control but its own. -/
theorem control_spaces {k : Control} (other : k ≠ .spaces) (assigned : c.assignSpaces u objects caps = some d) :
    k.view (d.writeSpaces objects) = k.view c := by
  obtain ⟨-, rfl⟩ := CpuRegs.assignSpaces_eq_some.mp assigned
  cases k
  case spaces => exact absurd rfl other
  all_goals
    simp (disch := decide) only [CpuRegs.writeSpaces, Control.view_write]
    rfl

theorem view_saveVmx (clean : m &&& Item.poison = 0#32) (p : Part) :
    p.view (c.saveVmx host u objects caps m).2 = p.view (transfer m (CpuRegs.items host u) c) := by
  rw [← saveItems_eq]
  unfold CpuRegs.saveVmx
  rw [if_neg (not_not.mpr clean)]
  dsimp only
  split
  · cases assigned : (c.saveItems host u m).assignSpaces u objects caps with
    | none => rfl
    | some d => exact view_spaces p assigned
  · rfl

theorem control_saveVmx {k : Control} (off : m &&& k.mask = 0#32) : k.view (c.saveVmx host u objects caps m).2 = k.view c := by
  have items : k.view (c.saveItems host u m) = k.view c := transfer_frame k.frames off
  unfold CpuRegs.saveVmx
  split
  · rfl
  · dsimp only
    split
    · rename_i spaces
      cases assigned : (c.saveItems host u m).assignSpaces u objects caps with
      | none => exact items
      | some d =>
          have other : k ≠ .spaces := by
            rintro rfl
            exact spaces off
          exact (control_spaces other assigned).trans items
    · exact items

theorem saveVmx_poison (poison : m &&& Item.poison ≠ 0#32) : c.saveVmx host u objects caps m = (false, c) := if_pos poison

end Whole

/-! ## Exceptions -/

/-- `Exc_regs` of a thread -/
structure ExcRegs where
  sys : SysRegs
  cr2 : Word
  err : Word
  vec : Word
  rip : Word
  cs : Word
  rfl : Word
  rsp : Word
  ss : Word

def rflIopl : Word := bitRange 13 12
def rflVip : Word := 1#64 <<< 20
def rflVif : Word := 1#64 <<< 19
def rflAc : Word := 1#64 <<< 18
def rflVm : Word := 1#64 <<< 17
def rflRf : Word := 1#64 <<< 16
def rflNt : Word := 1#64 <<< 14
def rflIf : Word := 1#64 <<< 9
def rfl1 : Word := 1#64 <<< 1

/-- The flags a VMM can set for a thread -/
def constrainRfl (v : Word) : Word :=
  (v &&& ~~~ (rflVip ||| rflVif ||| rflVm ||| rflRf ||| rflNt ||| rflIopl)) ||| rflAc ||| rflIf ||| rfl1

namespace ExcRegs

variable (u : UtcbArch) (e : ExcRegs)

def saveGpr0To7 : ExcRegs :=
  { e with
    sys := { e.sys with
      rax := u.sys.rax, rcx := u.sys.rcx, rdx := u.sys.rdx, rbx := u.sys.rbx
      rbp := u.sys.rbp, rsi := u.sys.rsi, rdi := u.sys.rdi }
    rsp := u.rsp }

def saveGpr8To15 : ExcRegs :=
  { e with sys := { e.sys with
      r8 := u.sys.r8, r9 := u.sys.r9, r10 := u.sys.r10, r11 := u.sys.r11
      r12 := u.sys.r12, r13 := u.sys.r13, r14 := u.sys.r14, r15 := u.sys.r15 } }

def saveRflags : ExcRegs := { e with rfl := constrainRfl u.rfl }

def saveRip : ExcRegs := { e with rip := u.rip }

/-- The items of `save_exc`.  `QUAL` is read-only. -/
def items : List (BitVec 32 × (ExcRegs → ExcRegs)) :=
  [(Item.gpr0To7, saveGpr0To7 u), (Item.gpr8To15, saveGpr8To15 u), (Item.rflags, saveRflags u), (Item.rip, saveRip u)]

def saveExc (m : BitVec 32) : Bool × ExcRegs := if m &&& Item.poison ≠ 0#32 then (false, e) else (true, transfer m (items u) e)

/-- What `save_exc` never changes -/
def rest : Word × Word × Word × Word × Word := (e.cr2, e.err, e.vec, e.cs, e.ss)

end ExcRegs

namespace UtcbArch

variable (e : ExcRegs) (u : UtcbArch)

def excGpr0To7 : UtcbArch :=
  { u with
    sys := { u.sys with
      rax := e.sys.rax, rcx := e.sys.rcx, rdx := e.sys.rdx, rbx := e.sys.rbx
      rbp := e.sys.rbp, rsi := e.sys.rsi, rdi := e.sys.rdi }
    rsp := e.rsp }

def excGpr8To15 : UtcbArch :=
  { u with sys := { u.sys with
      r8 := e.sys.r8, r9 := e.sys.r9, r10 := e.sys.r10, r11 := e.sys.r11
      r12 := e.sys.r12, r13 := e.sys.r13, r14 := e.sys.r14, r15 := e.sys.r15 } }

def excRflags : UtcbArch := { u with rfl := e.rfl }

def excRip : UtcbArch := { u with rip := e.rip }

def excQual : UtcbArch := { u with qual0 := e.err, qual1 := e.cr2 }

/-- The items of `load_exc` -/
def excItems : List (BitVec 32 × (UtcbArch → UtcbArch)) :=
  [(Item.gpr0To7, excGpr0To7 e), (Item.gpr8To15, excGpr8To15 e), (Item.rflags, excRflags e), (Item.rip, excRip e),
    (Item.qual, excQual e)]

def loadExc (m : BitVec 32) : UtcbArch := transfer m (excItems e) u

end UtcbArch

/-- The items of an exception that go both ways -/
inductive ExcPart where
  | gpr0To7 | gpr8To15 | rflags | rip

namespace ExcPart

/-- In the UTCB they are where those of a virtual CPU are. -/
def toPart : ExcPart → Part
  | gpr0To7 => .gpr0To7
  | gpr8To15 => .gpr8To15
  | rflags => .rflags
  | rip => .rip

@[reducible] def Data (p : ExcPart) : Type := p.toPart.Data

def mask (p : ExcPart) : BitVec 32 := p.toPart.mask

def field (p : ExcPart) (u : UtcbArch) : p.Data := p.toPart.field u

def view : (p : ExcPart) → ExcRegs → p.Data
  | gpr0To7, e => ![e.sys.rax, e.sys.rcx, e.sys.rdx, e.sys.rbx, e.rsp, e.sys.rbp, e.sys.rsi, e.sys.rdi]
  | gpr8To15, e => ![e.sys.r8, e.sys.r9, e.sys.r10, e.sys.r11, e.sys.r12, e.sys.r13, e.sys.r14, e.sys.r15]
  | rflags, e => e.rfl
  | rip, e => e.rip

def constrain : (p : ExcPart) → p.Data → p.Data
  | rflags, d => constrainRfl d
  | gpr0To7, d => d
  | gpr8To15, d => d
  | rip, d => d

theorem constrainRfl_bit (v : Word) : ∀ i < 64, (constrainRfl v).getLsbD i =
    (decide (i = 1 ∨ i = 9 ∨ i = 18) || (v.getLsbD i && !decide (i = 12 ∨ i = 13 ∨ i = 14 ∨ i = 16 ∨ i = 17 ∨ i = 19 ∨ i = 20))) := by
  have high : ∀ i < 64, (rflAc ||| rflIf ||| rfl1).getLsbD i = decide (i = 1 ∨ i = 9 ∨ i = 18) := by decide
  have low : ∀ i < 64, (~~~ (rflVip ||| rflVif ||| rflVm ||| rflRf ||| rflNt ||| rflIopl)).getLsbD i =
      !decide (i = 12 ∨ i = 13 ∨ i = 14 ∨ i = 16 ∨ i = 17 ∨ i = 19 ∨ i = 20) := by decide
  intro i small
  unfold constrainRfl
  rw [BitVec.or_assoc, BitVec.or_assoc, ← BitVec.or_assoc rflAc, BitVec.getLsbD_or, high i small, BitVec.getLsbD_and, low i small,
    Bool.or_comm]

theorem rfl_again (v : Word) : constrainRfl (constrainRfl v) = constrainRfl v := by
  apply BitVec.eq_of_getLsbD_eq
  intro i small
  rw [constrainRfl_bit _ i small, constrainRfl_bit v i small]
  generalize decide (i = 1 ∨ i = 9 ∨ i = 18) = high
  generalize decide (i = 12 ∨ i = 13 ∨ i = 14 ∨ i = 16 ∨ i = 17 ∨ i = 19 ∨ i = 20) = low
  cases v.getLsbD i <;> cases high <;> cases low <;> rfl

/-- The messages of an exception -/
def exchange : Exchange 32 ExcRegs UtcbArch ExcPart Unit where
  Data := Data
  State := Data
  env := fun _ => ()
  saves := ExcRegs.items
  loads := UtcbArch.excItems
  mask := mask
  field := field
  view := view
  put := fun p _ => constrain p
  get := fun _ _ d => d
  constrain := constrain
  save_env := fun _ _ _ _ => rfl
  save_own := by
    intro p u _
    unfold Owns
    simp only [ExcRegs.items, List.forall_mem_cons]
    cases p <;> refine ⟨?_, ?_, ?_, ?_, nofun⟩
    all_goals
      first
      | exact .inl ⟨rfl, fun _ _ => rfl⟩
      | exact .inr ⟨by decide, fun _ => rfl⟩
  save_item := by
    intro p u
    cases p <;> simp [ExcRegs.items, mask, toPart, Part.mask]
  load_own := by
    intro p e
    unfold Owns
    simp only [UtcbArch.excItems, List.forall_mem_cons]
    cases p <;> refine ⟨?_, ?_, ?_, ?_, ?_, nofun⟩
    all_goals
      first
      | exact .inl ⟨rfl, fun _ _ => rfl⟩
      | exact .inr ⟨by decide, fun _ => rfl⟩
  load_item := by
    intro p e
    cases p <;> simp [UtcbArch.excItems, mask, toPart, Part.mask]
  get_put := fun _ _ _ => rfl
  put_constrain := by
    intro p _ d
    cases p with
    | rflags => exact rfl_again d
    | _ => rfl

end ExcPart

/-! ## Round trips -/

/-- The item holds a value that `save_vmx` can have put there. -/
def Held (host : Host) (c : CpuRegs) (p : Part) : Prop :=
  ∃ (u : UtcbArch) (d : CpuRegs), d.fpuOn = c.fpuOn ∧ p.view c = p.view (p.save host u d)

/-- `load_vmx` and `save_vmx` with the mask `m` -/
structure VmxTransfer (host : Host) (objects : Objects) (caps : Caps) (m : BitVec 32) (c : CpuRegs) (u : UtcbArch) : Prop where
  load_save : ∀ p : Part, (m &&& p.mask ≠ 0#32 → Held host c p) →
    p.view (c.saveVmx host (u.loadVmx host c m) objects caps m).2 = p.view c
  save_load : m &&& Item.poison = 0#32 → ∀ p : Part, m &&& p.mask ≠ 0#32 → ∀ v : UtcbArch,
    p.field (v.loadVmx host (c.saveVmx host u objects caps m).2 m) = p.constrain host (p.field u)
  unselected : ∀ p : Part, m &&& p.mask = 0#32 →
    p.view (c.saveVmx host u objects caps m).2 = p.view c ∧ p.field (u.loadVmx host c m) = p.field u
  control : ∀ k : Control, m &&& k.mask = 0#32 → k.view (c.saveVmx host u objects caps m).2 = k.view c
  report : ∀ r : Report, m &&& r.mask = 0#32 → r.field (u.loadVmx host c m) = r.field u
  poison : m &&& Item.poison ≠ 0#32 → c.saveVmx host u objects caps m = (false, c)

/-- The item holds a value that `save_exc` can have put there. -/
def ExcHeld (e : ExcRegs) (p : ExcPart) : Prop := ∃ (u : UtcbArch) (d : ExcRegs), p.view e = p.view (d.saveExc u p.mask).2

/-- `load_exc` and `save_exc` with the mask `m` -/
structure ExcTransfer (m : BitVec 32) (e : ExcRegs) (u : UtcbArch) : Prop where
  load_save : ∀ p : ExcPart, (m &&& p.mask ≠ 0#32 → ExcHeld e p) → p.view (e.saveExc (u.loadExc e m) m).2 = p.view e
  save_load : m &&& Item.poison = 0#32 → ∀ p : ExcPart, m &&& p.mask ≠ 0#32 → ∀ v : UtcbArch,
    p.field (v.loadExc (e.saveExc u m).2 m) = p.constrain (p.field u)
  unselected : ∀ p : ExcPart, m &&& p.mask = 0#32 →
    p.view (e.saveExc u m).2 = p.view e ∧ p.field (u.loadExc e m) = p.field u
  rest : (e.saveExc u m).2.rest = e.rest
  others : ∀ p : Part, (∀ q : ExcPart, q.toPart ≠ p) → p.field (u.loadExc e m) = p.field u
  report : ∀ r : Report, r = .qual ∧ m &&& r.mask ≠ 0#32 ∨ r.field (u.loadExc e m) = r.field u
  poison : m &&& Item.poison ≠ 0#32 → e.saveExc u m = (false, e)
  rflags : m &&& Item.poison = 0#32 → m &&& Item.rflags ≠ 0#32 → ∀ v : UtcbArch,
    ∀ rfl ∈ [(e.saveExc u m).2.rfl, (v.loadExc (e.saveExc u m).2 m).rfl],
      (∀ i ∈ [1, 9, 18], rfl.getLsbD i = true) ∧ ∀ i ∈ [12, 13, 14, 16, 17, 19, 20], rfl.getLsbD i = false

section Laws

variable {host : Host} {objects : Objects} {caps : Caps} {m : BitVec 32} {c : CpuRegs} {u : UtcbArch} {e : ExcRegs}

theorem vmx_load_save (p : Part) (held : m &&& p.mask ≠ 0#32 → Held host c p) :
    p.view (c.saveVmx host (u.loadVmx host c m) objects caps m).2 = p.view c := by
  by_cases clean : m &&& Item.poison = 0#32
  · rw [view_saveVmx clean]
    refine (Part.exchange host).load_save fun on => ?_
    obtain ⟨v, d, same, is⟩ := held on
    exact ⟨p.field v, is.trans (Part.view_save_own p v same)⟩
  · rw [saveVmx_poison clean]

theorem vmx_save_load (clean : m &&& Item.poison = 0#32) (p : Part) (on : m &&& p.mask ≠ 0#32) (v : UtcbArch) :
    p.field (v.loadVmx host (c.saveVmx host u objects caps m).2 m) = p.constrain host (p.field u) := by
  have loaded : p.field (v.loadVmx host (c.saveVmx host u objects caps m).2 m) =
      p.get host (c.saveVmx host u objects caps m).2.fpuOn (p.view (c.saveVmx host u objects caps m).2) :=
    (Part.exchange host).field_load on
  have saved : p.view (transfer m (CpuRegs.items host u) c) = p.put host c.fpuOn (p.field u) := (Part.exchange host).view_save on
  rw [loaded, view_saveVmx clean, saved, CpuRegs.saveVmx_fpuOn, Part.get_put]

theorem vmxTransfer : VmxTransfer host objects caps m c u where
  load_save := vmx_load_save
  save_load := vmx_save_load
  unselected p off := by
    refine ⟨?_, (Part.exchange host).field_unselected off⟩
    by_cases clean : m &&& Item.poison = 0#32
    · rw [view_saveVmx clean]
      exact (Part.exchange host).view_unselected off
    · rw [saveVmx_poison clean]
  control _ := control_saveVmx
  report r off := transfer_frame (r.frames host c) off
  poison := saveVmx_poison

theorem saveExc_clean (clean : m &&& Item.poison = 0#32) : e.saveExc u m = (true, transfer m (ExcRegs.items u) e) :=
  if_neg (not_not.mpr clean)

theorem saveExc_poison (poison : m &&& Item.poison ≠ 0#32) : e.saveExc u m = (false, e) := if_pos poison

theorem ExcHeld.constrained {p : ExcPart} (held : ExcHeld e p) : ∃ d, p.view e = p.constrain d := by
  obtain ⟨v, d, is⟩ := held
  have clean : p.mask &&& Item.poison = 0#32 := by cases p <;> decide
  have on : p.mask &&& p.mask ≠ 0#32 := by cases p <;> decide
  rw [saveExc_clean clean] at is
  exact ⟨p.field v, is.trans (ExcPart.exchange.view_save on)⟩

theorem exc_load_save (p : ExcPart) (held : m &&& p.mask ≠ 0#32 → ExcHeld e p) :
    p.view (e.saveExc (u.loadExc e m) m).2 = p.view e := by
  by_cases clean : m &&& Item.poison = 0#32
  · rw [saveExc_clean clean]
    exact ExcPart.exchange.load_save fun on => (held on).constrained
  · rw [saveExc_poison clean]

theorem exc_save_load (clean : m &&& Item.poison = 0#32) (p : ExcPart) (on : m &&& p.mask ≠ 0#32) (v : UtcbArch) :
    p.field (v.loadExc (e.saveExc u m).2 m) = p.constrain (p.field u) := by
  rw [saveExc_clean clean]
  exact ExcPart.exchange.save_load on v

theorem exc_rest : (e.saveExc u m).2.rest = e.rest := by
  unfold ExcRegs.saveExc
  split
  · rfl
  · refine transfer_keeps (P := fun d : ExcRegs => d.rest = e.rest) ?_ rfl
    simp only [ExcRegs.items, List.forall_mem_cons]
    exact ⟨fun _ same => same, fun _ same => same, fun _ same => same, fun _ same => same, nofun⟩

theorem exc_others (p : Part) (other : ∀ q : ExcPart, q.toPart ≠ p) : p.field (u.loadExc e m) = p.field u := by
  refine transfer_keeps (P := fun v => p.field v = p.field u) ?_ rfl
  simp only [UtcbArch.excItems, List.forall_mem_cons]
  cases p
  case gpr0To7 => exact absurd rfl (other .gpr0To7)
  case gpr8To15 => exact absurd rfl (other .gpr8To15)
  case rflags => exact absurd rfl (other .rflags)
  case rip => exact absurd rfl (other .rip)
  all_goals exact ⟨fun _ same => same, fun _ same => same, fun _ same => same, fun _ same => same, fun _ same => same, nofun⟩

theorem exc_report (r : Report) : r = .qual ∧ m &&& r.mask ≠ 0#32 ∨ r.field (u.loadExc e m) = r.field u := by
  by_cases qual : r = .qual ∧ m &&& r.mask ≠ 0#32
  · exact .inl qual
  · refine .inr (transfer_frame (k := r.mask &&& Item.qual) ?_ ?_)
    · unfold Frames
      simp only [UtcbArch.excItems, List.forall_mem_cons]
      cases r <;> refine ⟨?_, ?_, ?_, ?_, ?_, nofun⟩
      all_goals
        first
        | exact .inr fun _ => rfl
        | exact .inl (by decide)
    · cases r
      case qual =>
        have off : m &&& Item.qual = 0#32 := by
          by_contra on
          exact qual ⟨rfl, on⟩
        change m &&& (Item.qual &&& Item.qual) = 0#32
        rw [BitVec.and_self, off]
      all_goals exact BitVec.and_zero

theorem exc_rflags (clean : m &&& Item.poison = 0#32) (on : m &&& Item.rflags ≠ 0#32) (v : UtcbArch) :
    ∀ rfl ∈ [(e.saveExc u m).2.rfl, (v.loadExc (e.saveExc u m).2 m).rfl],
      (∀ i ∈ [1, 9, 18], rfl.getLsbD i = true) ∧ ∀ i ∈ [12, 13, 14, 16, 17, 19, 20], rfl.getLsbD i = false := by
  have saved : (e.saveExc u m).2.rfl = constrainRfl u.rfl := by
    rw [saveExc_clean clean]
    exact ExcPart.exchange.view_save (p := .rflags) on
  have loaded : (v.loadExc (e.saveExc u m).2 m).rfl = constrainRfl u.rfl := exc_save_load clean .rflags on v
  have flags : (∀ i ∈ [1, 9, 18], (constrainRfl u.rfl).getLsbD i = true) ∧
      ∀ i ∈ [12, 13, 14, 16, 17, 19, 20], (constrainRfl u.rfl).getLsbD i = false := by
    refine ⟨fun i set => ?_, fun i clear => ?_⟩
    · have small : i < 64 := by revert i; decide
      have high : i = 1 ∨ i = 9 ∨ i = 18 := by simpa using set
      rw [ExcPart.constrainRfl_bit _ i small, decide_eq_true high, Bool.true_or]
    · have small : i < 64 := by revert i; decide
      have low : i = 12 ∨ i = 13 ∨ i = 14 ∨ i = 16 ∨ i = 17 ∨ i = 19 ∨ i = 20 := by simpa using clear
      have other : ¬(i = 1 ∨ i = 9 ∨ i = 18) := by omega
      rw [ExcPart.constrainRfl_bit _ i small, decide_eq_true low, decide_eq_false other, Bool.not_true, Bool.and_false, Bool.or_false]
  rw [saved, loaded]
  exact List.forall_mem_cons.mpr ⟨flags, List.forall_mem_cons.mpr ⟨flags, nofun⟩⟩

theorem excTransfer : ExcTransfer m e u where
  load_save := exc_load_save
  save_load := exc_save_load
  unselected p off := by
    refine ⟨?_, ExcPart.exchange.field_unselected off⟩
    by_cases clean : m &&& Item.poison = 0#32
    · rw [saveExc_clean clean]
      exact ExcPart.exchange.view_unselected off
    · rw [saveExc_poison clean]
  rest := exc_rest
  others := exc_others
  report := exc_report
  poison := saveExc_poison
  rflags := exc_rflags

/-- **State transfer.**  For every message about a VM exit or an exception: what was loaded can be saved without a
change, what was saved is loaded as it was, up to the constraints of the machine, and nothing else is touched. -/
theorem state_transfer : (∀ host objects caps m c u, VmxTransfer host objects caps m c u) ∧ ∀ m e u, ExcTransfer m e u :=
  ⟨fun _ _ _ _ _ _ => vmxTransfer, fun _ _ _ => excTransfer⟩

end Laws

end Nova.Kernel.Vmx
