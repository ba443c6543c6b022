/-
# Nova.Kernel.ControlRegs — CR0 and CR4 as a guest sees them

Under VMX a guest has the bits of CR0 and CR4 to itself that `CR0_MASK` and `CR4_MASK`
leave free; the others it reads from the read shadows.  The masks have the bits that the
CPU demands, those that the hypervisor needs for the FPU, and those that the VMM wants to
intercept.  `save_vmx` and `fpu_ctrl` change the masks.

A VMM that transfers `CTRL` without `CR` can intercept a bit that the guest has changed
since the last transfer of `CR`.  The read shadow still has the old value: from then on the
guest reads that one, while `load_vmx` reports the other (`intercepted_late`).  In all
other cases the guest sees the same before and after (`control_regs_kept`).
-/
import Nova.Kernel.StateTransfer
import Nova.Theory.Runs
import Nova.Theory.Shadow

namespace Nova.Kernel.Vmx

open Nova.Theory.Words
open Nova.Theory.Runs
open Nova.Theory.Shadow
open Nova.Theory.Transfers

set_option autoImplicit false

/-! ## The two registers -/

namespace CpuRegs

def cr0 (c : CpuRegs) : Register 64 :=
  { real := c.vmcs .guestCr0, mask := c.vmcs .cr0Mask, shadow := c.vmcs .cr0ReadShadow, copy := c.shadowCr0 }

def cr4 (c : CpuRegs) : Register 64 :=
  { real := c.vmcs .guestCr4, mask := c.vmcs .cr4Mask, shadow := c.vmcs .cr4ReadShadow, copy := c.shadowCr4 }

/-- The masks are those for `fpu_on` and the intercepts. -/
structure Masked (host : Host) (c : CpuRegs) : Prop where
  cr0 : c.cr0.mask = c.mskCr0 host ||| c.intcptCr0
  cr4 : c.cr4.mask = mskCr4 host ||| c.intcptCr4

structure Sound (host : Host) (c : CpuRegs) : Prop where
  cr0 : c.cr0.Sound (c.mskCr0 host) (c.setCr0 host) c.intcptCr0
  cr4 : c.cr4.Sound (mskCr4 host) (setCr4 host) c.intcptCr4

/-- What `Masked` and `Sound` look at -/
def facade (c : CpuRegs) : Register 64 × Register 64 × Word × Word × Bool := (c.cr0, c.cr4, c.intcptCr0, c.intcptCr4, c.fpuOn)

variable {host : Host} {u : UtcbArch} {c d : CpuRegs} {m : BitVec 32} {objects : Objects} {caps : Caps}

theorem facade_write {field : Encoding} (v : Word) (other : field ≠ .guestCr0 ∧ field ≠ .cr0Mask ∧ field ≠ .cr0ReadShadow ∧
    field ≠ .guestCr4 ∧ field ≠ .cr4Mask ∧ field ≠ .cr4ReadShadow) : (c.write field v).facade = c.facade := by
  obtain ⟨cr0, mask0, shadow0, cr4, mask4, shadow4⟩ := other
  simp only [facade, CpuRegs.cr0, CpuRegs.cr4, write, Function.update_of_ne cr0.symm, Function.update_of_ne mask0.symm,
    Function.update_of_ne shadow0.symm, Function.update_of_ne cr4.symm, Function.update_of_ne mask4.symm,
    Function.update_of_ne shadow4.symm]

theorem facade_write32 {field : Encoding} (v : BitVec 32) (other : field ≠ .guestCr0 ∧ field ≠ .cr0Mask ∧
    field ≠ .cr0ReadShadow ∧ field ≠ .guestCr4 ∧ field ≠ .cr4Mask ∧ field ≠ .cr4ReadShadow) :
    (c.write32 field v).facade = c.facade := facade_write _ other

theorem mskCr0_of_fpuOn (host : Host) (same : d.fpuOn = c.fpuOn) : d.mskCr0 host = c.mskCr0 host ∧ d.setCr0 host = c.setCr0 host := by
  unfold mskCr0 setCr0
  rw [same]
  exact ⟨rfl, rfl⟩

theorem Sound.of_facade (sound : Sound host c) (same : d.facade = c.facade) : Sound host d := by
  obtain ⟨msk, set⟩ := mskCr0_of_fpuOn host (congrArg (fun f => f.2.2.2.2) same)
  simp only [facade, Prod.mk.injEq] at same
  obtain ⟨cr0, cr4, int0, int4, -⟩ := same
  refine ⟨?_, ?_⟩
  · rw [cr0, msk, set, int0]
    exact sound.cr0
  · rw [cr4, int4]
    exact sound.cr4

theorem Masked.of_facade (masked : Masked host c) (same : d.facade = c.facade) : Masked host d := by
  obtain ⟨msk, -⟩ := mskCr0_of_fpuOn host (congrArg (fun f => f.2.2.2.2) same)
  simp only [facade, Prod.mk.injEq] at same
  obtain ⟨cr0, cr4, int0, int4, -⟩ := same
  refine ⟨?_, ?_⟩
  · rw [cr0, msk, int0]
    exact masked.cr0
  · rw [cr4, int4]
    exact masked.cr4

theorem Sound.masked (sound : Sound host c) : Masked host c := ⟨sound.cr0.mask, sound.cr4.mask⟩

theorem and_or_self (a b : Word) : b &&& (a ||| b) = b := by
  apply BitVec.eq_of_getLsbD_eq
  intro i _
  rw [BitVec.getLsbD_and, BitVec.getLsbD_or]
  cases b.getLsbD i <;> simp

theorem set_inside (c : CpuRegs) : c.setCr0 host &&& c.mskCr0 host = c.setCr0 host := and_or_self _ _

theorem set4_inside : setCr4 host &&& mskCr4 host = setCr4 host := and_or_self _ _

/-! ## Items of a message -/

/-- The items before `CTRL`, between `CTRL` and `CR`, and after `CR` -/
def before (u : UtcbArch) : List (BitVec 32 × (CpuRegs → CpuRegs)) :=
  [(Item.gpr0To7, saveGpr0To7 u), (Item.gpr8To15, saveGpr8To15 u), (Item.rflags, saveRflags u), (Item.rip, saveRip u),
    (Item.sta, saveSta u)]

def between (host : Host) (u : UtcbArch) : List (BitVec 32 × (CpuRegs → CpuRegs)) :=
  [(Item.tpr, saveTpr u), (Item.inj, saveInj host u), (Item.csSs, saveCsSs u), (Item.dsEs, saveDsEs u), (Item.fsGs, saveFsGs u),
    (Item.tr, saveTr u), (Item.ldtr, saveLdtr u), (Item.gdtr, saveGdtr u), (Item.idtr, saveIdtr u), (Item.pdpte, savePdpte u)]

def after (host : Host) (u : UtcbArch) : List (BitVec 32 × (CpuRegs → CpuRegs)) :=
  [(Item.dr, saveDr u), (Item.xsave, saveXsave host u), (Item.syscall, saveSyscall u), (Item.sysenter, saveSysenter u),
    (Item.pat, savePat u), (Item.efer, saveEfer u), (Item.kernelGsBase, saveKernelGsBase u)]

theorem items_split : items host u =
    before u ++ (Item.ctrl, saveCtrl host u) :: (between host u ++ (Item.cr, saveCr host u) :: after host u) := rfl

theorem plain_facade : ∀ i ∈ before u ++ (between host u ++ after host u), ∀ c : CpuRegs, (i.2 c).facade = c.facade := by
  simp only [before, between, after, List.cons_append, List.nil_append, List.forall_mem_cons]
  refine ⟨fun c => ?_, fun c => ?_, fun c => ?_, fun c => ?_, fun c => ?_, fun c => ?_, fun c => ?_, fun c => ?_, fun c => ?_,
    fun c => ?_, fun c => ?_, fun c => ?_, fun c => ?_, fun c => ?_, fun c => ?_, fun c => ?_, fun c => ?_, fun c => ?_,
    fun c => ?_, fun c => ?_, fun c => ?_, fun c => ?_, List.forall_mem_nil _⟩
  all_goals
    simp (disch := decide) only [saveGpr0To7, saveGpr8To15, saveRflags, saveRip, saveSta, saveTpr, saveInj, saveCsSs, saveDsEs,
      saveFsGs, saveTr, saveLdtr, saveGdtr, saveIdtr, savePdpte, saveDr, saveXsave, saveSyscall, saveSysenter, savePat, saveEfer,
      saveKernelGsBase, saveSegment, vmxSetCpuPri, facade_write, facade_write32]
  all_goals rfl

theorem saveCtrl_facade : (saveCtrl host u c).facade =
    (c.cr0.hide (c.mskCr0 host) u.intcptCr0, c.cr4.hide (mskCr4 host) u.intcptCr4, u.intcptCr0, u.intcptCr4, c.fpuOn) := by
  simp (disch := decide) only [saveCtrl, vmxSetBmpExc, vmxSetCpuPri, vmxSetCpuSec, vmxSetCpuTer, facade_write, facade_write32]
  rfl

theorem saveCr_facade : (saveCr host u c).facade =
    (c.cr0.store (c.mskCr0 host) (c.setCr0 host) u.cr0, c.cr4.store (mskCr4 host) (setCr4 host) u.cr4,
      c.intcptCr0, c.intcptCr4, c.fpuOn) := by
  simp (disch := decide) only [saveCr, facade_write]
  rfl

theorem saveCr_congr (same : d.facade = c.facade) : (saveCr host u d).facade = (saveCr host u c).facade := by
  obtain ⟨msk, set⟩ := mskCr0_of_fpuOn host (congrArg (fun f => f.2.2.2.2) same)
  rw [saveCr_facade, saveCr_facade, msk, set]
  simp only [facade, Prod.mk.injEq] at same ⊢
  obtain ⟨cr0, cr4, int0, int4, on⟩ := same
  rw [cr0, cr4]
  exact ⟨rfl, rfl, int0, int4, on⟩

theorem saveCtrl_congr (same : d.facade = c.facade) : (saveCtrl host u d).facade = (saveCtrl host u c).facade := by
  obtain ⟨msk, -⟩ := mskCr0_of_fpuOn host (congrArg (fun f => f.2.2.2.2) same)
  rw [saveCtrl_facade, saveCtrl_facade, msk]
  simp only [facade, Prod.mk.injEq] at same ⊢
  obtain ⟨cr0, cr4, -, -, on⟩ := same
  rw [cr0, cr4]
  exact ⟨rfl, rfl, trivial, trivial, on⟩

/-- `CTRL`, then `CR`, is all that happens to the two registers. -/
theorem saveItems_facade : (c.saveItems host u m).facade =
    (take m (take m c (Item.ctrl, saveCtrl host u)) (Item.cr, saveCr host u)).facade :=
  transfer_two items_split plain_facade (fun _ _ same => saveCtrl_congr same) (fun _ _ same => saveCr_congr same)

theorem saveVmx_facade (clean : m &&& Item.poison = 0#32) :
    (c.saveVmx host u objects caps m).2.facade = (c.saveItems host u m).facade := by
  unfold saveVmx
  rw [if_neg (not_not.mpr clean)]
  dsimp only
  split
  · cases assigned : (c.saveItems host u m).assignSpaces u objects caps with
    | none => rfl
    | some d =>
        obtain ⟨-, rfl⟩ := assignSpaces_eq_some.mp assigned
        simp (disch := decide) only [writeSpaces, facade_write]
        rfl
  · rfl

theorem fpuCtrl_facade (on : Bool) : (c.fpuCtrl host on).facade =
    ((c.cr0.store ({ c with fpuOn := on }.mskCr0 host) ({ c with fpuOn := on }.setCr0 host) (c.cr0.load (c.mskCr0 host))).hide
      ({ c with fpuOn := on }.mskCr0 host) c.intcptCr0, c.cr4, c.intcptCr0, c.intcptCr4, on) := by
  simp (disch := decide) only [fpuCtrl, vmxSetBmpExc, facade_write32]
  rfl

/-! ## Sound registers -/

theorem masked_saveCtrl : Masked host (saveCtrl host u c) := by
  have is := @saveCtrl_facade host u c
  simp only [facade, Prod.mk.injEq] at is
  obtain ⟨cr0, cr4, int0, int4, on⟩ := is
  obtain ⟨msk, -⟩ := mskCr0_of_fpuOn host on
  refine ⟨?_, ?_⟩
  · rw [cr0, msk, int0]
    rfl
  · rw [cr4, int4]
    rfl

theorem Masked.saveCr (masked : Masked host c) : Sound host (saveCr host u c) := by
  have is := @saveCr_facade host u c
  simp only [facade, Prod.mk.injEq] at is
  obtain ⟨cr0, cr4, int0, int4, on⟩ := is
  obtain ⟨msk, set⟩ := mskCr0_of_fpuOn host on
  refine ⟨?_, ?_⟩
  · rw [cr0, msk, set, int0]
    exact sound_store masked.cr0 (set_inside c) u.cr0
  · rw [cr4, int4]
    exact sound_store masked.cr4 set4_inside u.cr4

theorem Sound.saveCtrl (sound : Sound host c) (fresh0 : c.cr0.stale u.intcptCr0 = 0#64) (fresh4 : c.cr4.stale u.intcptCr4 = 0#64) :
    Sound host (saveCtrl host u c) := by
  have is := @saveCtrl_facade host u c
  simp only [facade, Prod.mk.injEq] at is
  obtain ⟨cr0, cr4, int0, int4, on⟩ := is
  obtain ⟨msk, set⟩ := mskCr0_of_fpuOn host on
  refine ⟨?_, ?_⟩
  · rw [cr0, msk, set, int0]
    exact sound.cr0.hide fresh0
  · rw [cr4, int4]
    exact sound.cr4.hide fresh4

theorem Masked.fpuCtrl (masked : Masked host c) (on : Bool) : Masked host (fpuCtrl host c on) := by
  have is := @fpuCtrl_facade host c on
  simp only [facade, Prod.mk.injEq] at is
  obtain ⟨cr0, cr4, int0, int4, -⟩ := is
  refine ⟨?_, ?_⟩
  · rw [cr0, int0]
    rfl
  · rw [cr4, int4]
    exact masked.cr4

theorem Sound.fpuCtrl (sound : Sound host c) (on : Bool) : Sound host (fpuCtrl host c on) := by
  have is := @fpuCtrl_facade host c on
  simp only [facade, Prod.mk.injEq] at is
  obtain ⟨cr0, cr4, int0, int4, -⟩ := is
  refine ⟨?_, ?_⟩
  · rw [cr0, int0, store_hide]
    exact sound_store rfl (set_inside { c with fpuOn := on }) _
  · rw [cr4, int4]
    exact sound.cr4

/-! ## What a guest sees -/

def visible (c : CpuRegs) : Word × Word := (c.cr0.visible, c.cr4.visible)

/-- `load_vmx` tells the VMM what the guest sees. -/
def Reported (host : Host) (c : CpuRegs) : Prop :=
  ∀ (u : UtcbArch) (m : BitVec 32), m &&& Item.cr ≠ 0#32 → ((u.loadVmx host c m).cr0, (u.loadVmx host c m).cr4) = c.visible

/-- No CPU wants a bit to be both set and clear, and none wants `CR0_TS` to be clear. -/
structure Consistent (host : Host) : Prop where
  cr0 : host.fixCr0Set &&& host.fixCr0Clr = 0#64
  ts : cr0Ts &&& host.fixCr0Clr = 0#64
  cr4 : host.fixCr4Set &&& host.fixCr4Clr = 0#64

/-- The registers of the guest satisfy the CPU. -/
structure Fixed (host : Host) (c : CpuRegs) : Prop where
  cr0 : c.cr0.real &&& host.fixCr0Set = host.fixCr0Set
  cr4 : c.cr4.real &&& host.fixCr4Set = host.fixCr4Set
  clear : Consistent host → c.cr0.real &&& host.fixCr0Clr = 0#64 ∧ c.cr4.real &&& host.fixCr4Clr = 0#64

theorem Sound.reported (sound : Sound host c) : Reported host c := by
  intro u m on
  have loaded : Part.cr.field (u.loadVmx host c m) = Part.cr.get host c.fpuOn (Part.cr.view c) :=
    (Part.exchange host).field_load (p := Part.cr) on
  simp only [Part.field, Part.get, Part.view, Prod.mk.injEq] at loaded
  rw [loaded.1, loaded.2.2.2, visible, ← sound.cr0.load, ← sound.cr4.load]
  rfl

theorem bits_set {real msk set fix : Word} (forced : real &&& msk = set) (part : set &&& fix = fix) : real &&& fix = fix := by
  rw [← part, ← forced]
  apply BitVec.eq_of_getLsbD_eq
  intro i _
  simp only [BitVec.getLsbD_and]
  cases real.getLsbD i <;> simp

theorem bits_clear {real clr set : Word} (forced : real &&& (clr ||| set) = set) (apart : set &&& clr = 0#64) :
    real &&& clr = 0#64 := by
  apply BitVec.eq_of_getLsbD_eq
  intro i _
  have forced := congrArg (fun x => x.getLsbD i) forced
  have apart := congrArg (fun x => x.getLsbD i) apart
  simp only [BitVec.getLsbD_and, BitVec.getLsbD_or, BitVec.getLsbD_zero] at forced apart ⊢
  grind

theorem Sound.fixed (sound : Sound host c) : Fixed host c := by
  have ts (part : Consistent host) : c.setCr0 host &&& host.fixCr0Clr = 0#64 := by
    unfold setCr0
    split
    · rw [BitVec.or_zero, part.cr0]
    · rw [BitVec.and_or_distrib_right, part.cr0, part.ts, BitVec.or_self]
  refine ⟨bits_set sound.cr0.forced ?_, bits_set sound.cr4.forced ?_, fun part => ⟨?_, ?_⟩⟩
  · rw [BitVec.and_comm, setCr0, BitVec.or_comm]
    exact and_or_self _ _
  · exact BitVec.and_self
  · exact bits_clear sound.cr0.forced (ts part)
  · exact bits_clear sound.cr4.forced part.cr4

/-! ## Runs -/

/-- What changes the registers: the guest, where it may; the hypervisor, when the FPU gets another owner; and the
replies of the VMM -/
inductive Act where
  | guestCr0 (v : Word)
  | guestCr4 (v : Word)
  | fpuCtrl (on : Bool)
  | reply (u : UtcbArch) (m : BitVec 32) (objects : Objects) (caps : Caps)

def step (host : Host) : Act → CpuRegs → CpuRegs
  | .guestCr0 v, c => c.write .guestCr0 ((c.vmcs .guestCr0 &&& c.vmcs .cr0Mask) ||| (v &&& ~~~ c.vmcs .cr0Mask))
  | .guestCr4 v, c => c.write .guestCr4 ((c.vmcs .guestCr4 &&& c.vmcs .cr4Mask) ||| (v &&& ~~~ c.vmcs .cr4Mask))
  | .fpuCtrl on, c => c.fpuCtrl host on
  | .reply u m objects caps, c => (c.saveVmx host u objects caps m).2

/-- The guest itself changes what it sees. -/
def Act.guest : Act → Bool
  | .guestCr0 _ | .guestCr4 _ => true
  | .fpuCtrl _ | .reply .. => false

/-- The values that a reply supplies -/
def Act.supplied : Act → Option (Word × Word)
  | .reply u m _ _ => if m &&& Item.poison = 0#32 ∧ m &&& Item.cr ≠ 0#32 then some (u.cr0, u.cr4) else none
  | _ => none

/-- What the guest and its VMM can rely on -/
structure Kept (host : Host) (c : CpuRegs) (a : Act) : Prop where
  unseen : a.guest = false → a.supplied = none → (step host a c).visible = c.visible
  supplied : ∀ v, a.supplied = some v → (step host a c).visible = v
  reported : Reported host (step host a c)
  fixed : Fixed host (step host a c)

/-- A reply with `CTRL` but without `CR` intercepts no bit anew that the guest has changed. -/
def Careful (c : CpuRegs) : Act → Prop
  | .reply u m _ _ => m &&& Item.poison = 0#32 → m &&& Item.ctrl ≠ 0#32 → m &&& Item.cr = 0#32 →
      c.cr0.stale u.intcptCr0 = 0#64 ∧ c.cr4.stale u.intcptCr4 = 0#64
  | _ => True

theorem visible_of_facade (same : d.facade = c.facade) : d.visible = c.visible := by
  simp only [facade, Prod.mk.injEq] at same
  rw [visible, visible, same.1, same.2.1]

theorem visible_fpuCtrl (sound : Sound host c) (on : Bool) : (c.fpuCtrl host on).visible = c.visible := by
  have is := @fpuCtrl_facade host c on
  simp only [facade, Prod.mk.injEq] at is
  obtain ⟨cr0, cr4, -, -, -⟩ := is
  rw [visible, visible, cr0, cr4, store_hide, visible_store rfl (set_inside { c with fpuOn := on }), sound.cr0.load]

theorem visible_saveCr (masked : Masked host c) : (saveCr host u c).visible = (u.cr0, u.cr4) := by
  have is := @saveCr_facade host u c
  simp only [facade, Prod.mk.injEq] at is
  obtain ⟨cr0, cr4, -, -, -⟩ := is
  rw [visible, cr0, cr4, visible_store masked.cr0 (set_inside c), visible_store masked.cr4 set4_inside]

theorem visible_saveCtrl (sound : Sound host c) : (saveCtrl host u c).visible = c.visible ↔
    c.cr0.stale u.intcptCr0 = 0#64 ∧ c.cr4.stale u.intcptCr4 = 0#64 := by
  have is := @saveCtrl_facade host u c
  simp only [facade, Prod.mk.injEq] at is
  obtain ⟨cr0, cr4, -, -, -⟩ := is
  rw [visible, visible, cr0, cr4, Prod.mk.injEq, sound.cr0.visible_hide, sound.cr4.visible_hide]

/-- A reply as far as it concerns the two registers -/
theorem reply_facade (clean : m &&& Item.poison = 0#32) : (c.saveVmx host u objects caps m).2.facade =
    (take m (take m c (Item.ctrl, saveCtrl host u)) (Item.cr, saveCr host u)).facade :=
  (saveVmx_facade clean).trans saveItems_facade

/-- Whatever came before, a reply with `CR` sets things right. -/
theorem reply_cr (masked : Masked host c) (clean : m &&& Item.poison = 0#32) (cr : m &&& Item.cr ≠ 0#32) :
    Sound host (c.saveVmx host u objects caps m).2 ∧ (c.saveVmx host u objects caps m).2.visible = (u.cr0, u.cr4) := by
  have ctrl : Masked host (take m c (Item.ctrl, saveCtrl host u)) := by
    unfold take
    split
    · exact masked_saveCtrl
    · exact masked
  have is := @reply_facade host u c m objects caps clean
  rw [take_selected cr] at is
  exact ⟨ctrl.saveCr.of_facade is, (visible_of_facade is).trans (visible_saveCr ctrl)⟩

theorem Masked.step (masked : Masked host c) (a : Act) : Masked host (step host a c) := by
  cases a with
  | guestCr0 v => exact ⟨masked.cr0, masked.cr4⟩
  | guestCr4 v => exact ⟨masked.cr0, masked.cr4⟩
  | fpuCtrl on => exact masked.fpuCtrl on
  | reply u m objects caps =>
      change Masked host (c.saveVmx host u objects caps m).2
      by_cases clean : m &&& Item.poison = 0#32
      · by_cases cr : m &&& Item.cr = 0#32
        · have is := @reply_facade host u c m objects caps clean
          rw [take_unselected cr] at is
          refine Masked.of_facade ?_ is
          unfold take
          split
          · exact masked_saveCtrl
          · exact masked
        · exact (reply_cr masked clean cr).1.masked
      · rw [saveVmx_poison clean]
        exact masked

/-- A step that is careful keeps the registers sound … -/
theorem Sound.step (sound : Sound host c) {a : Act} (careful : Careful c a) : Sound host (step host a c) := by
  cases a with
  | guestCr0 v => exact ⟨sound.cr0.write v, sound.cr4⟩
  | guestCr4 v => exact ⟨sound.cr0, sound.cr4.write v⟩
  | fpuCtrl on => exact sound.fpuCtrl on
  | reply u m objects caps =>
      change Sound host (c.saveVmx host u objects caps m).2
      by_cases clean : m &&& Item.poison = 0#32
      · by_cases cr : m &&& Item.cr = 0#32
        · have is := @reply_facade host u c m objects caps clean
          rw [take_unselected cr] at is
          refine Sound.of_facade ?_ is
          by_cases ctrl : m &&& Item.ctrl = 0#32
          · rw [take_unselected ctrl]
            exact sound
          · rw [take_selected ctrl]
            obtain ⟨fresh0, fresh4⟩ := careful clean ctrl cr
            exact sound.saveCtrl fresh0 fresh4
        · exact (reply_cr sound.masked clean cr).1
      · rw [saveVmx_poison clean]
        exact sound

/-- … and is one the guest and its VMM can rely on; no other step is. -/
theorem kept_iff (sound : Sound host c) (a : Act) : Kept host c a ↔ Careful c a := by
  refine ⟨fun kept => ?_, fun careful => ⟨fun own none => ?_, fun v given => ?_, (sound.step careful).reported,
    (sound.step careful).fixed⟩⟩
  · cases a with
    | guestCr0 v => trivial
    | guestCr4 v => trivial
    | fpuCtrl on => trivial
    | reply u m objects caps =>
        intro clean ctrl cr
        have none : (Act.reply u m objects caps).supplied = none := if_neg fun given => given.2 cr
        have same := kept.unseen rfl none
        have is := @reply_facade host u c m objects caps clean
        rw [take_unselected cr, take_selected ctrl] at is
        rw [step, visible_of_facade is] at same
        exact (visible_saveCtrl sound).mp same
  · cases a with
    | guestCr0 v => cases own
    | guestCr4 v => cases own
    | fpuCtrl on => exact visible_fpuCtrl sound on
    | reply u m objects caps =>
        change (c.saveVmx host u objects caps m).2.visible = c.visible
        by_cases clean : m &&& Item.poison = 0#32
        · have cr : m &&& Item.cr = 0#32 := by
            by_contra on
            rw [Act.supplied, if_pos ⟨clean, on⟩] at none
            cases none
          have is := @reply_facade host u c m objects caps clean
          rw [take_unselected cr] at is
          rw [visible_of_facade is]
          by_cases ctrl : m &&& Item.ctrl = 0#32
          · rw [take_unselected ctrl]
          · rw [take_selected ctrl]
            exact (visible_saveCtrl sound).mpr (careful clean ctrl cr)
        · rw [saveVmx_poison clean]
  · cases a with
    | guestCr0 w => cases given
    | guestCr4 w => cases given
    | fpuCtrl on => cases given
    | reply u m objects caps =>
        rw [Act.supplied] at given
        split at given
        · rename_i selected
          rw [← Option.some.inj given]
          exact (reply_cr sound.masked selected.1 selected.2).2
        · cases given

theorem masked_create (obj : Word) (stale : Encoding → Word) : Masked host (create host obj stale) := by
  have same : (create host obj stale).facade =
      ((({ create host obj stale with vmcs := stale }.vmxSetMskCr0 host).vmxSetMskCr4 host).vmxSetBmpExc).facade := by
    simp (disch := decide) only [create, vmxSetCpuPri, vmxSetCpuSec, facade_write32]
    rfl
  exact Masked.of_facade ⟨rfl, rfl⟩ same

/-- The registers after a run -/
def run (host : Host) (c : CpuRegs) (acts : List Act) : CpuRegs := acts.foldl (fun c a => step host a c) c

theorem Masked.run (masked : Masked host c) (acts : List Act) : Masked host (run host c acts) := by
  unfold CpuRegs.run
  induction acts generalizing c with
  | nil => exact masked
  | cons a rest ih => exact ih (masked.step a)

/-- **Guest-visible control registers.**  Once a VMM has transferred `CR`, the guest sees what it has been given and
what it wrote itself, the VMM is told the same, and the CPU has the bits it needs, in every run, exactly if every reply
is `Careful`. -/
theorem control_regs_kept (host : Host) (obj : Word) (stale : Encoding → Word) (before : List Act) (u : UtcbArch) (m : BitVec 32)
    (objects : Objects) (caps : Caps) (clean : m &&& Item.poison = 0#32) (cr : m &&& Item.cr ≠ 0#32) (after : List Act) :
    let c := ((run host (create host obj stale) before).saveVmx host u objects caps m).2
    (c.visible = (u.cr0, u.cr4) ∧ Reported host c ∧ Fixed host c) ∧
      (Along (step host) (Kept host) c after ↔ Along (step host) Careful c after) := by
  have masked : Masked host (run host (create host obj stale) before) := (masked_create obj stale).run before
  obtain ⟨sound, given⟩ := @reply_cr host u _ m objects caps masked clean cr
  refine ⟨⟨given, sound.reported, sound.fixed⟩, ?_⟩
  exact Along.iff (fun _ _ sound careful => sound.step careful) (fun _ a sound => kept_iff sound a) after _ sound

/-! ## A bit that is intercepted late -/

/-- NE and VMXE must be set, CD and NW must not, and bits that no CPU has must be clear. -/
def plainHost : Host where
  cpuPriSet := 0xb5a065f2#32
  cpuPriClr := 0xfff9fffe#32
  cpuSecSet := 0xa2#32
  cpuSecClr := 0x553cfe#32
  cpuTerSet := 0#64
  cpuTerClr := 0#64
  fixCr0Set := 0x20#64
  fixCr0Clr := 0xffffffff60000000#64
  fixCr4Set := 0x2000#64
  fixCr4Clr := 0xffffffffffc89000#64
  xcr := 7#64
  xss := 0#64

/-- No reply here assigns spaces. -/
def noObjects : Objects := ⟨fun _ => .pd, fun _ => .gst, fun _ => 0#64, fun _ => 0#64⟩

/-- The VMM supplies CR0 = 0 and CR4 = 0 for a real-mode guest. -/
def supplied : CpuRegs := ((create plainHost 0#64 fun _ => 0#64).saveVmx plainHost default noObjects (fun _ => .null) Item.cr).2

/-- The guest enters protected mode; then the VMM intercepts `CR0_PE`. -/
def lateIntercept : List Act :=
  [.guestCr0 1#64, .reply { (default : UtcbArch) with intcptCr0 := 1#64 } Item.ctrl noObjects (fun _ => .null)]

theorem intercepted_late : ¬ Along (step plainHost) (Kept plainHost) supplied lateIntercept := by
  intro along
  exact absurd (along.2.1.unseen rfl rfl) (by decide +kernel)

/-- A guest that enters protected mode and gets the FPU -/
theorem control_regs_kept_enter : let c := ((run plainHost (create plainHost 0#64 fun _ => 0#64) []).saveVmx plainHost default
      noObjects (fun _ => .null) Item.cr).2
    (c.visible = (0#64, 0#64) ∧ Reported plainHost c ∧ Fixed plainHost c) ∧
      (Along (step plainHost) (Kept plainHost) c [.guestCr0 1#64, .fpuCtrl true] ↔
        Along (step plainHost) Careful c [.guestCr0 1#64, .fpuCtrl true]) :=
  control_regs_kept plainHost 0#64 (fun _ => 0#64) [] default Item.cr noObjects (fun _ => .null) (by decide) (by decide)
    [.guestCr0 1#64, .fpuCtrl true]

end CpuRegs

end Nova.Kernel.Vmx
