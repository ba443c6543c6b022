/-
# Nova.Kernel.ArmEntry — the configuration in which a virtual CPU enters its guest (aarch64)

The counterpart of Nova.Kernel.VmxEntry.  A virtual CPU starts with all registers 0 and
`ILLEGAL`; before its first message `set_vmm_regs` sets up `HCR`, with `RW` clear.  A reply
with `SPACES` gives it a guest space and makes it legal.  That the mode fits the register
width is checked only by a reply that transfers one of the two.

* `arm_entry`: the guest is entered only in a legal configuration, if the reply that makes
  a virtual CPU legal also transfers `EL2_HCR` or `EL2_ELR_SPSR`;
* `not_arm_entry`: with `SPACES` alone, the guest is entered at EL0t of AArch64 while `HCR`
  selects AArch32.
-/
import Nova.Kernel.ArmRegs
import Nova.Kernel.Entry

namespace Nova.Kernel.Arm

open Nova.Theory.Runs
open Nova.Theory.Words
open Nova.Kernel.Contexts

set_option autoImplicit false

/-- What `sys_ipc_reply` gets, with the capabilities of the object space of the replying EC -/
structure VmmReply where
  mtd : BitVec 32
  utcb : UtcbArch
  caps : Caps

namespace CpuRegs

/-- The hazards that matter on the return path -/
def stops : BitVec 32 := Hazard.illegal ||| Hazard.recalled

/-- Everything about the registers may become as in `d`, but for the two hazards, the guest space and `HCR`.  A guest
leaves with the `SPSR` of a mode that fits its register width. -/
def drift (d c : CpuRegs) : CpuRegs :=
  let spsr :=
    match c.vmcb with
    | none => d.exc.spsr
    | some v => if fits v.hcr d.exc.spsr then d.exc.spsr else c.exc.spsr
  { c with
    exc := { d.exc with spsr := spsr }
    vmcb := c.vmcb.map fun v => { d.vmcb.getD v with hcr := v.hcr }
    hazard := (d.hazard &&& ~~~ stops) ||| (c.hazard &&& stops) }

theorem drift_has (d c : CpuRegs) {i : Nat} (small : i < 32) (inside : stops.getLsbD i = true) :
    Hazard.has (drift d c).hazard (1#32 <<< i) = Hazard.has c.hazard (1#32 <<< i) := by
  rw [Hazard.has_bit _ small, Hazard.has_bit _ small]
  change ((d.hazard &&& ~~~ stops) ||| (c.hazard &&& stops)).getLsbD i = _
  rw [BitVec.getLsbD_or, BitVec.getLsbD_and, BitVec.getLsbD_and, BitVec.getLsbD_not, inside]
  simp

section Save

variable {host : Host} {objects : Objects} {caps : Caps} {u : UtcbArch} {c d : CpuRegs} {m : BitVec 32}

/-- `assign_spaces` succeeds exactly if the capability is good. -/
theorem assignSpaces_eq_some : c.assignSpaces objects caps u = some d ↔
    Vmx.CpuRegs.Assigns objects (objects.pd c.obj) ObjSubtype.gst (caps.lookup u.selGst) ∧
      d = { c with gst := (caps.lookup u.selGst).obj }.hazardClr Hazard.illegal := by
  unfold assignSpaces
  dsimp only
  split
  · rename_i invalid
    refine ⟨nofun, fun ⟨assigns, _⟩ => ?_⟩
    rw [assigns.valid] at invalid
    exact absurd invalid (by decide)
  · rename_i valid
    simp only [Bool.not_eq_true', Bool.not_eq_false] at valid
    split
    · rename_i foreign
      exact ⟨nofun, fun ⟨assigns, _⟩ => absurd assigns.pd foreign⟩
    · rename_i home
      refine ⟨fun is => ⟨⟨valid, of_not_not home⟩, (Option.some.inj is).symm⟩, ?_⟩
      rintro ⟨-, rfl⟩
      rfl

/-- The registers of a virtual CPU after all items but `SPACES` -/
def saved (host : Host) (u : UtcbArch) (m : BitVec 32) (c : CpuRegs) (v : Vmcb) : CpuRegs :=
  { c with exc := saveExc u m true c.exc, vmcb := some (saveVmcb host u m c.res0Hcr v) }

/-- The check at the end of `save`, on what the message brings and what was there before -/
def check (u : UtcbArch) (m : BitVec 32) (c : CpuRegs) (v : Vmcb) : Bool :=
  if m &&& (Item.el2Hcr ||| Item.el2ElrSpsr) ≠ 0#32 then
    fits (if m &&& Item.el2Hcr ≠ 0#32 then Hcr.constrain c.res0Hcr u.hcr else v.hcr)
      (if m &&& Item.el2ElrSpsr ≠ 0#32 then u.spsr else c.exc.spsr)
  else true

theorem checkMode_eq (v : Vmcb) : checkMode m (saveVmcb host u m c.res0Hcr v) (saveExc u m true c.exc) = check u m c v := by
  unfold checkMode check
  rw [saveVmcb_hcr, saveExc_spsr, if_pos rfl]

/-- `save` for a virtual CPU -/
theorem save_vcpu {v : Vmcb} (vcpu : c.vmcb = some v) : c.save host objects caps u m =
    if m &&& Item.poison ≠ 0#32 then (false, c)
    else if m &&& Item.spaces ≠ 0#32 then
      match (saved host u m c v).assignSpaces objects caps u with
      | none => (false, saved host u m c v)
      | some d => (check u m c v, d)
    else (check u m c v, saved host u m c v) := by
  unfold save
  rw [vcpu]
  dsimp only [Option.isSome_some]
  rw [checkMode_eq]
  rfl

/-- `save` for another EC -/
theorem save_thread (thread : c.vmcb = none) : c.save host objects caps u m = (false, c) ∨
    c.save host objects caps u m = (true, { c with exc := saveExc u m false c.exc }) := by
  unfold save
  split
  · exact Or.inl rfl
  · rw [thread]
    exact Or.inr rfl

theorem save_recall : Hazard.has (c.save host objects caps u m).2.hazard Hazard.recalled = Hazard.has c.hazard Hazard.recalled := by
  cases vcpu : c.vmcb with
  | none =>
      rcases save_thread vcpu with is | is
      · rw [is]
      · rw [is]
  | some v =>
      rw [save_vcpu vcpu]
      split
      · rfl
      · split
        · cases assigned : (saved host u m c v).assignSpaces objects caps u with
          | none => rfl
          | some d =>
              obtain ⟨-, rfl⟩ := assignSpaces_eq_some.mp assigned
              exact Hazard.has_recall_not_illegal c.hazard
        · rfl

end Save

end CpuRegs

/-- The registers of the ECs of an aarch64 machine -/
def arch (host : Host) (objects : Objects) : Contexts.Arch CpuRegs VmmReply CpuRegs where
  illegal c := Hazard.has c.hazard Hazard.illegal
  recalled c := Hazard.has c.hazard Hazard.recalled
  setIllegal := CpuRegs.hazardSet Hazard.illegal
  setRecall := CpuRegs.hazardSet Hazard.recalled
  clrRecall := CpuRegs.hazardClr Hazard.recalled
  prepare := CpuRegs.setVmmRegs host
  save _ p c := c.save host objects p.caps p.utcb p.mtd
  drift := CpuRegs.drift
  illegal_setIllegal c := Hazard.has_illegal_or c.hazard
  illegal_setRecall c := Hazard.has_illegal_recall c.hazard
  illegal_clrRecall c := Hazard.has_illegal_not_recall c.hazard
  illegal_prepare c := by
    unfold CpuRegs.setVmmRegs
    split <;> rfl
  illegal_drift d c := CpuRegs.drift_has d c (by decide) (by decide)
  recall_setRecall c := Hazard.has_recall_or c.hazard
  recall_clrRecall c := Hazard.has_recall_not c.hazard
  recall_setIllegal c := Hazard.has_recall_illegal c.hazard
  recall_prepare c := by
    unfold CpuRegs.setVmmRegs
    split <;> rfl
  recall_save _ _ _ := CpuRegs.save_recall
  recall_drift d c := CpuRegs.drift_has d c (by decide) (by decide)

/-! ## Legal configurations -/

/-- The guest space is one of the own PD, for which the VMM had a capability. -/
structure Housed (objects : Objects) (accepted : List (Msg × VmmReply)) (c : CpuRegs) : Prop where
  nonnull : c.gst ≠ 0#64
  subtype : objects.subtype c.gst = ObjSubtype.gst
  pd : objects.pd c.gst = objects.pd c.obj
  named : ∃ x p, (x, p) ∈ accepted ∧ p.mtd &&& Item.spaces ≠ 0#32 ∧
    Vmx.CpuRegs.Assigns objects (objects.pd c.obj) ObjSubtype.gst (p.caps.lookup p.utcb.selGst) ∧
    c.gst = (p.caps.lookup p.utcb.selGst).obj

/-- The guest may be entered. -/
structure Configured (objects : Objects) (accepted : List (Msg × VmmReply)) (c : CpuRegs) (v : Vmcb) : Prop where
  gst : Housed objects accepted c
  hcr : Hcr.Constrained c.res0Hcr v.hcr
  mode : LegalMode v.hcr c.exc.spsr

theorem Housed.congr {objects : Objects} {accepted accepted' : List (Msg × VmmReply)} {c d : CpuRegs}
    (housed : Housed objects accepted c) (more : accepted ⊆ accepted') (obj : d.obj = c.obj) (gst : d.gst = c.gst) :
    Housed objects accepted' d := by
  obtain ⟨nonnull, subtype, pd, x, p, member, requested, assigns, is⟩ := housed
  rw [← obj] at assigns pd
  rw [← gst] at nonnull subtype pd is
  exact ⟨nonnull, subtype, pd, x, p, more member, requested, assigns, is⟩

/-- What holds of the registers of a virtual CPU in every state.  `set_vmm_regs` has to run first. -/
structure Settled (objects : Objects) (first : Bool) (accepted : List (Msg × VmmReply)) (c : CpuRegs) (v : Vmcb) : Prop where
  vmcb : c.vmcb = some v
  new : first = true → Hazard.has c.hazard Hazard.illegal = true
  hcr : first = false → Hcr.Constrained c.res0Hcr v.hcr
  legal : Hazard.has c.hazard Hazard.illegal = false → Housed objects accepted c ∧ fits v.hcr c.exc.spsr = true

def Keeps (objects : Objects) {n k : Nat} (cfg : Config n k) (e : Fin n) (first : Bool) (accepted : List (Msg × VmmReply))
    (c : CpuRegs) : Prop :=
  cfg.vcpu e = true → ∃ v, Settled objects first accepted c v

/-- A reply that makes a virtual CPU legal also transfers its mode or its register width. -/
def Heeds {n k : Nat} (objects : Objects) (cfg : Config n k) (e : Fin n) (_ : Msg) (p : VmmReply) (c : CpuRegs) : Prop :=
  cfg.vcpu e = true → Hazard.has c.hazard Hazard.illegal = true → p.mtd &&& Item.poison = 0#32 →
    p.mtd &&& Item.spaces ≠ 0#32 →
    (p.caps.lookup p.utcb.selGst).validateSp objects Perm.spAssign ObjSubtype.gst = true →
    objects.pd (p.caps.lookup p.utcb.selGst).obj = objects.pd c.obj →
    p.mtd &&& (Item.el2Hcr ||| Item.el2ElrSpsr) ≠ 0#32
deriving Decidable

theorem own_of_assigns {objects : Objects} {c : CpuRegs} {p : VmmReply} {x : Msg} {accepted : List (Msg × VmmReply)}
    (requested : p.mtd &&& Item.spaces ≠ 0#32)
    (assigns : Vmx.CpuRegs.Assigns objects (objects.pd c.obj) ObjSubtype.gst (p.caps.lookup p.utcb.selGst))
    (gst : c.gst = (p.caps.lookup p.utcb.selGst).obj) : Housed objects ((x, p) :: accepted) c := by
  have valid := assigns.valid
  unfold Capability.validateSp at valid
  simp only [Bool.and_eq_true, decide_eq_true_eq] at valid
  refine ⟨?_, ?_, ?_, x, p, List.mem_cons_self, requested, assigns, gst⟩
  · rw [gst]
    exact valid.1.1.1
  · rw [gst]
    exact valid.1.2
  · rw [gst]
    exact assigns.pd

section Settle

variable {host : Host} {objects : Objects} {first : Bool} {accepted : List (Msg × VmmReply)} {c d : CpuRegs} {v w : Vmcb}

/-- Nothing that matters changes. -/
theorem Settled.congr (settled : Settled objects first accepted c v) (vmcb : d.vmcb = some w) (res0 : d.res0Hcr = c.res0Hcr)
    (hcr : w.hcr = v.hcr) (obj : d.obj = c.obj) (gst : d.gst = c.gst)
    (illegal : Hazard.has d.hazard Hazard.illegal = Hazard.has c.hazard Hazard.illegal)
    (mode : fits v.hcr c.exc.spsr = true → fits v.hcr d.exc.spsr = true) : Settled objects first accepted d w := by
  refine ⟨vmcb, fun new => illegal.trans (settled.new new), fun ready => ?_, fun legal => ?_⟩
  · rw [res0, hcr]
    exact settled.hcr ready
  · obtain ⟨housed, fit⟩ := settled.legal (illegal.symm.trans legal)
    rw [hcr]
    exact ⟨housed.congr (List.Subset.refl _) obj gst, mode fit⟩

theorem Settled.drift (settled : Settled objects first accepted c v) (d : CpuRegs) :
    ∃ w, Settled objects first accepted (CpuRegs.drift d c) w := by
  refine ⟨{ d.vmcb.getD v with hcr := v.hcr }, settled.congr ?_ rfl rfl rfl rfl (CpuRegs.drift_has d c (by decide) (by decide))
    fun fit => ?_⟩
  · unfold CpuRegs.drift
    rw [settled.vmcb]
    rfl
  · unfold CpuRegs.drift
    rw [settled.vmcb]
    dsimp only
    split
    · assumption
    · exact fit

theorem Settled.setVmmRegs (settled : Settled objects true accepted c v) :
    ∃ w, Settled objects false accepted (c.setVmmRegs host) w := by
  have illegal := settled.new rfl
  unfold CpuRegs.setVmmRegs
  rw [settled.vmcb]
  dsimp only
  refine ⟨_, rfl, nofun, fun _ => Hcr.constrained_constrain c.res0Hcr 0#64, fun legal => ?_⟩
  exact absurd (illegal.symm.trans legal) (by decide)

/-- The items of a message keep `HCR` under the control of the kernel. -/
theorem saved_hcr {u : UtcbArch} {m : BitVec 32} (settled : Settled objects false accepted c v) :
    Hcr.Constrained c.res0Hcr (saveVmcb host u m c.res0Hcr v).hcr := by
  rw [saveVmcb_hcr]
  split
  · exact Hcr.constrained_constrain c.res0Hcr u.hcr
  · exact settled.hcr rfl

/-- If the check of a message succeeds, the mode fits afterwards, unless it did not fit before and neither the mode
nor the register width has been transferred. -/
theorem saved_fits {u : UtcbArch} {m : BitVec 32} (checked : CpuRegs.check u m c v = true)
    (before : m &&& (Item.el2Hcr ||| Item.el2ElrSpsr) = 0#32 → fits v.hcr c.exc.spsr = true) :
    fits (saveVmcb host u m c.res0Hcr v).hcr (saveExc u m true c.exc).spsr = true := by
  rw [saveVmcb_hcr, saveExc_spsr, if_pos rfl]
  unfold CpuRegs.check at checked
  split at checked
  · exact checked
  · rename_i neither
    rw [not_not] at neither
    obtain ⟨hcr, spsr⟩ : m &&& Item.el2Hcr = 0#32 ∧ m &&& Item.el2ElrSpsr = 0#32 := by
      rw [BitVec.and_or_distrib_left] at neither
      exact ⟨BitVec.or_eq_zero_iff.mp neither |>.1, BitVec.or_eq_zero_iff.mp neither |>.2⟩
    rw [if_neg (not_not.mpr hcr), if_neg (not_not.mpr spsr)]
    exact before neither

/-- A reply that is accepted -/
theorem Settled.accept {p : VmmReply} (x : Msg) (settled : Settled objects false accepted c v)
    (heeds : Hazard.has c.hazard Hazard.illegal = true → p.mtd &&& Item.poison = 0#32 → p.mtd &&& Item.spaces ≠ 0#32 →
      (p.caps.lookup p.utcb.selGst).validateSp objects Perm.spAssign ObjSubtype.gst = true →
      objects.pd (p.caps.lookup p.utcb.selGst).obj = objects.pd c.obj →
      p.mtd &&& (Item.el2Hcr ||| Item.el2ElrSpsr) ≠ 0#32)
    (saved : c.save host objects p.caps p.utcb p.mtd = (true, d)) : ∃ w, Settled objects false ((x, p) :: accepted) d w := by
  rw [CpuRegs.save_vcpu settled.vmcb] at saved
  have hcr : Hcr.Constrained c.res0Hcr (saveVmcb host p.utcb p.mtd c.res0Hcr v).hcr := saved_hcr settled
  refine ⟨saveVmcb host p.utcb p.mtd c.res0Hcr v, ?_⟩
  split at saved
  · cases saved
  · rename_i clean
    rw [not_not] at clean
    split at saved
    · rename_i requested
      cases assigned : (CpuRegs.saved host p.utcb p.mtd c v).assignSpaces objects p.caps p.utcb with
      | none =>
          rw [assigned] at saved
          cases saved
      | some d' =>
          rw [assigned] at saved
          obtain ⟨checked, rfl⟩ := Prod.mk.inj saved
          obtain ⟨assigns, rfl⟩ := CpuRegs.assignSpaces_eq_some.mp assigned
          refine ⟨rfl, nofun, fun _ => hcr, fun _ => ⟨own_of_assigns requested assigns rfl, ?_⟩⟩
          refine saved_fits checked fun neither => ?_
          -- the reply transfers neither, so the virtual CPU was legal before
          have legal : Hazard.has c.hazard Hazard.illegal = false := by
            rw [← Bool.not_eq_true]
            exact fun illegal => heeds illegal clean requested assigns.valid assigns.pd neither
          exact (settled.legal legal).2
    · obtain ⟨checked, rfl⟩ := Prod.mk.inj saved
      refine ⟨rfl, nofun, fun _ => hcr, fun legal => ?_⟩
      obtain ⟨housed, fit⟩ := settled.legal legal
      exact ⟨housed.congr (List.subset_cons_self _ _) rfl rfl, saved_fits checked fun _ => fit⟩

/-- A reply that is refused -/
theorem Settled.refuse {p : VmmReply} (settled : Settled objects false accepted c v)
    (saved : c.save host objects p.caps p.utcb p.mtd = (false, d)) :
    ∃ w, Settled objects false accepted (d.hazardSet Hazard.illegal) w := by
  have condemned : ∀ {r : CpuRegs} {w : Vmcb}, r.vmcb = some w → Hcr.Constrained r.res0Hcr w.hcr →
      Settled objects false accepted (r.hazardSet Hazard.illegal) w := by
    intro r w vmcb hcr
    refine ⟨vmcb, nofun, fun _ => hcr, fun legal => ?_⟩
    change Hazard.has (r.hazard ||| Hazard.illegal) Hazard.illegal = false at legal
    rw [Hazard.has_illegal_or] at legal
    cases legal
  have hcr : Hcr.Constrained c.res0Hcr (saveVmcb host p.utcb p.mtd c.res0Hcr v).hcr := saved_hcr settled
  rw [CpuRegs.save_vcpu settled.vmcb] at saved
  split at saved
  · obtain ⟨-, rfl⟩ := Prod.mk.inj saved
    exact ⟨v, condemned settled.vmcb (settled.hcr rfl)⟩
  · refine ⟨saveVmcb host p.utcb p.mtd c.res0Hcr v, ?_⟩
    split at saved
    · cases assigned : (CpuRegs.saved host p.utcb p.mtd c v).assignSpaces objects p.caps p.utcb with
      | none =>
          rw [assigned] at saved
          obtain ⟨-, rfl⟩ := Prod.mk.inj saved
          exact condemned rfl hcr
      | some d' =>
          rw [assigned] at saved
          obtain ⟨-, rfl⟩ := Prod.mk.inj saved
          obtain ⟨-, rfl⟩ := CpuRegs.assignSpaces_eq_some.mp assigned
          exact condemned rfl hcr
    · obtain ⟨-, rfl⟩ := Prod.mk.inj saved
      exact condemned rfl hcr

end Settle

theorem lawful_keeps {n k : Nat} (host : Host) (objects : Objects) (cfg : Config n k) :
    System.Lawful (arch host objects) (Heeds objects cfg) (Keeps objects cfg) where
  setRecall := fun {e first l r} keeps vcpu => by
    obtain ⟨v, settled⟩ := keeps vcpu
    exact ⟨v, settled.congr settled.vmcb rfl rfl rfl rfl (Hazard.has_illegal_recall r.hazard) id⟩
  clrRecall := fun {e first l r} keeps vcpu => by
    obtain ⟨v, settled⟩ := keeps vcpu
    exact ⟨v, settled.congr settled.vmcb rfl rfl rfl rfl (Hazard.has_illegal_not_recall r.hazard) id⟩
  drift := fun d keeps vcpu => by
    obtain ⟨v, settled⟩ := keeps vcpu
    exact settled.drift d
  prepare := fun keeps vcpu => by
    obtain ⟨v, settled⟩ := keeps vcpu
    exact settled.setVmmRegs
  accept := fun x p keeps heeds saved vcpu => by
    obtain ⟨v, settled⟩ := keeps vcpu
    exact settled.accept x (heeds vcpu) saved
  refuse := fun x p keeps saved vcpu => by
    obtain ⟨v, settled⟩ := keeps vcpu
    exact settled.refuse saved

/-! ## Runs -/

/-- A reply that is poisoned, names no good guest space, or brings a mode and a register width that do not fit -/
def Bad (objects : Objects) (p : VmmReply) (c : CpuRegs) (v : Vmcb) : Prop :=
  p.mtd &&& Item.poison ≠ 0#32 ∨
  (p.mtd &&& Item.spaces ≠ 0#32 ∧
    ¬ Vmx.CpuRegs.Assigns objects (objects.pd c.obj) ObjSubtype.gst (p.caps.lookup p.utcb.selGst)) ∨
  (p.mtd &&& (Item.el2Hcr ||| Item.el2ElrSpsr) ≠ 0#32 ∧
    ¬ LegalMode (if p.mtd &&& Item.el2Hcr ≠ 0#32 then Hcr.constrain c.res0Hcr p.utcb.hcr else v.hcr)
      (if p.mtd &&& Item.el2ElrSpsr ≠ 0#32 then p.utcb.spsr else c.exc.spsr))

/-- `save` refuses such a reply. -/
theorem save_bad {host : Host} {objects : Objects} {p : VmmReply} {c : CpuRegs} {v : Vmcb} (vmcb : c.vmcb = some v)
    (bad : Bad objects p c v) : ∃ d, c.save host objects p.caps p.utcb p.mtd = (false, d) := by
  rw [CpuRegs.save_vcpu vmcb]
  split
  · exact ⟨_, rfl⟩
  · rename_i clean
    have rest := bad.resolve_left clean
    -- if the space is good, the mode is not
    have unfit : (p.mtd &&& Item.spaces ≠ 0#32 →
        Vmx.CpuRegs.Assigns objects (objects.pd c.obj) ObjSubtype.gst (p.caps.lookup p.utcb.selGst)) →
        CpuRegs.check p.utcb p.mtd c v = false := by
      intro good
      rcases rest with ⟨requested, ungranted⟩ | ⟨transferred, mode⟩
      · exact absurd (good requested) ungranted
      · unfold CpuRegs.check
        rw [if_pos transferred, ← Bool.not_eq_true, fits_iff]
        exact mode
    split
    · rename_i requested
      cases assigned : (CpuRegs.saved host p.utcb p.mtd c v).assignSpaces objects p.caps p.utcb with
      | none => exact ⟨_, rfl⟩
      | some d =>
          obtain ⟨assigns, -⟩ := CpuRegs.assignSpaces_eq_some.mp assigned
          rw [unfit fun _ => assigns]
          exact ⟨_, rfl⟩
    · rename_i unrequested
      rw [unfit fun requested => absurd requested unrequested]
      exact ⟨_, rfl⟩

/-- The virtual CPUs are new, the other ECs may have any registers. -/
def boot {n k : Nat} (cfg : Config n k) (obj res0 : Fin n → Word) (threads : Fin n → CpuRegs) (e : Fin n) : CpuRegs :=
  if cfg.vcpu e then CpuRegs.create (obj e) (res0 e) else threads e

/-- What the kernel guarantees in a state: a virtual CPU in guest mode is legally configured, and one whose reply
fails a check is killed before it gets there again. -/
structure Enters {n k : Nat} (cfg : Config n k) (host : Host) (objects : Objects) (s : System n k CpuRegs VmmReply) : Prop where
  legal : ∀ c, (s.machine.cpu c).pc = .user → cfg.vcpu (s.machine.self c) = true →
    ∃ v, (s.regs (s.machine.self c)).vmcb = some v ∧
      Configured objects (s.accepted (s.machine.self c)) (s.regs (s.machine.self c)) v
  kills : ∀ c a x p v, s.addressee cfg c = some (a, x) → (s.regs a).vmcb = some v → Bad objects p (s.regs a) v →
    ∃ s', s.step cfg .vmexitVmx (arch host objects) c (.reply p) = some s' ∧
      ∀ later : List (Fin k × Input n VmmReply CpuRegs),
        ∃ s'', runs (fun i s => s.step cfg .vmexitVmx (arch host objects) i.1 i.2) s' later = some s'' ∧
          System.Perishes cfg .vmexitVmx (arch host objects) a s''

/-- **A virtual CPU enters its guest only in a legal configuration**, in every run in which the reply that makes it
legal also transfers `EL2_HCR` or `EL2_ELR_SPSR`.  The place `vmexitVmx` of the machine is `ret_user_vmexit` here. -/
theorem arm_entry {n k : Nat} (cfg : Config n k) (host : Host) (objects : Objects) (root : Option (Fin n))
    (count : Nat → Nat) (obj res0 : Fin n → Word) (threads : Fin n → CpuRegs)
    (inputs : List (Fin k × Input n VmmReply CpuRegs))
    (legal : Legal (fun i s => s.step cfg .vmexitVmx (arch host objects) i.1 i.2) (System.Obeys cfg (Heeds objects cfg))
      (System.start cfg .vmexitVmx root count (boot cfg obj res0 threads)) inputs) :
    ∃ s, runs (fun i s => s.step cfg .vmexitVmx (arch host objects) i.1 i.2)
      (System.start cfg .vmexitVmx root count (boot cfg obj res0 threads)) inputs = some s ∧ Enters cfg host objects s := by
  have start : System.Guarded cfg (arch host objects) count (Keeps objects cfg)
      (System.start cfg .vmexitVmx root count (boot cfg obj res0 threads)) := by
    refine System.guarded_start root .vmexitVmx _ fun e vcpu => ?_
    unfold boot
    rw [if_pos vcpu, vcpu]
    have new : Hazard.has Hazard.illegal Hazard.illegal = true := by decide
    exact ⟨_, rfl, fun _ => new, nofun, fun legal => absurd (new.symm.trans legal) (by decide)⟩
  obtain ⟨s, reached, guarded⟩ := System.runs_guarded (lawful_keeps host objects cfg) .vmexitVmx start inputs legal
  refine ⟨s, reached, fun c user vcpu => ?_, fun c a x p v is vmcb bad => ?_⟩
  · obtain ⟨v, settled⟩ := guarded.regs _ vcpu
    have entered := guarded.user c user
    have begun : s.first (s.machine.self c) = false := by
      rw [← Bool.not_eq_true]
      exact fun new => absurd ((settled.new new).symm.trans entered) (by decide)
    obtain ⟨housed, fit⟩ := settled.legal entered
    exact ⟨v, settled.vmcb, housed, settled.hcr begun, (fits_iff _ _).mp fit⟩
  · obtain ⟨d, refused⟩ := save_bad vmcb bad
    obtain ⟨s', done, -, later⟩ := System.reply_perishes guarded.plain is
      (show (arch host objects).save x p (s.regs a) = (false, d) from refused) .vmexitVmx
    exact ⟨s', done, later⟩

/-- A guest space at the address 0x2000, of the PD of the virtual CPU -/
def oneSpace : Objects where
  type := fun _ => .pd
  subtype := fun _ => .gst
  pd := fun _ => 0x5000#64
  phys := fun o => o

/-- The VMM has a capability for it and assigns it, with these items and this `HCR`. -/
def assigning (items : BitVec 32) (hcr : Word) : VmmReply where
  mtd := Item.spaces ||| items
  utcb := { (default : UtcbArch) with hcr := hcr, selGst := 1#64 }
  caps := fun k => if k.val = 1 then .ofObject 0x2000#64 Perm.spAssign else .null

/-- The start of a machine with one virtual CPU, on a CPU that implements all of `HCR` -/
def oneVcpu : System 3 1 CpuRegs VmmReply :=
  System.start System.oneGuest .vmexitVmx none (fun _ => 0) (boot System.oneGuest (fun _ => 0x1000#64) (fun _ => 0#64) fun _ => default)

/-- The VMM selects AArch64, where the guest begins at EL0t. -/
theorem arm_entry_wide : ∃ s, runs (fun i s => s.step System.oneGuest .vmexitVmx (arch default oneSpace) i.1 i.2) oneVcpu
    (System.enterGuest (assigning Item.el2Hcr Hcr.rw)) = some s ∧ Enters System.oneGuest default oneSpace s :=
  arm_entry System.oneGuest default oneSpace none (fun _ => 0) (fun _ => 0x1000#64) (fun _ => 0#64) (fun _ => default) _
    (by decide +kernel)

/-- **The guest is entered in an illegal mode**: the first reply only assigns the guest space.  `set_vmm_regs` has left
`RW` clear and the constructor `SPSR` at EL0t of AArch64, which nobody compares. -/
theorem not_arm_entry : ¬ ∀ inputs : List (Fin 1 × Input 3 VmmReply CpuRegs),
    ∃ s, runs (fun i s => s.step System.oneGuest .vmexitVmx (arch default oneSpace) i.1 i.2) oneVcpu inputs = some s ∧
      Enters System.oneGuest default oneSpace s := by
  intro always
  obtain ⟨s, reached, enters⟩ := always (System.enterGuest (assigning 0#32 0#64))
  have final : (runs (fun i s => s.step System.oneGuest .vmexitVmx (arch default oneSpace) i.1 i.2) oneVcpu
      (System.enterGuest (assigning 0#32 0#64))).map (fun s => ((s.machine.cpu 0).pc, s.machine.self 0,
        (s.regs 1).vmcb.map Vmcb.hcr, (s.regs 1).exc.spsr)) = some (.user, 1, some (Hcr.constrain 0#64 0#64), 0#64) := by
    decide +kernel
  rw [reached] at final
  obtain ⟨pc, rest⟩ := Prod.mk.inj (Option.some.inj final)
  obtain ⟨self, rest⟩ := Prod.mk.inj rest
  obtain ⟨hcr, spsr⟩ := Prod.mk.inj rest
  obtain ⟨v, vmcb, configured⟩ := enters.legal 0 pc (by rw [self]; rfl)
  rw [self] at vmcb
  have mode := configured.mode
  rw [self, spsr] at mode
  rw [vmcb] at hcr
  rw [Option.some.inj hcr] at mode
  revert mode
  unfold LegalMode
  decide

end Nova.Kernel.Arm
