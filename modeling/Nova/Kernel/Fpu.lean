/-
# Nova.Kernel.Fpu — who owns the FPU

`Ec::switch_fpu` (`src/ec.cpp`) with `fpu_load` and `fpu_save`, on one CPU.  The FPU is
handed over only when an EC traps on it: `#NM` on x86, in user mode or in a VMX guest, and
exception class 7 on aarch64.  Ownership is written down in `Ec::fpowner`, in the hazard
of the EC, in the hazard of the CPU, in `CR0.TS` or `CPTR_EL2.TFP`, and for a virtual CPU
also in the VMCS.

A state is the part of the machine that has to do with the FPU.  The kernel may return to
any EC of the CPU at any time, whatever the scheduler does.  `last` is bookkeeping: what
the EC left in the registers when it used them last, or its initial area.

* `fpu_lazy`: all of these agree, in every state of every run in which no virtual CPU that
  owns the FPU raises an `#NM` that its VMM wants to see, and none enters its guest before
  its VMM has transferred CR0;
* `not_lazy_intercepted`: the assertion of `switch_fpu` fails otherwise.
-/
import Nova.Theory.Runs
import Nova.Kernel.Vmcs

namespace Nova.Kernel.Fpu

open Nova.Theory.Runs Nova.Theory.Words Nova.Kernel.Vmx

set_option autoImplicit false

inductive Arch
  | x86 | aarch64
  deriving DecidableEq

/-- The CPU, the kernel objects, and the initial contents of an `Fpu` -/
structure Setting (α : Type) where
  arch : Arch
  host : Host
  objects : Objects
  initial : α

/-- An EC.  `fpu` is the area that `Ec::fpu` points to.  `loaded` is bookkeeping: CR0 of the guest
was transferred by the VMM, or `TS` happened to be set in the memory of the VMCS. -/
structure Ec (α : Type) where
  vcpu : Bool
  fpu : Option α
  regs : CpuRegs
  loaded : Bool

/-- A CPU.  `trap` is `CR0.TS` or `CPTR_EL2.TFP`, `live` are the registers of the FPU, and `mode` is
the EC that executes in user or guest mode, if it is not the kernel that does. -/
structure Cpu (α : Type) where
  ec : Nat → Option (Ec α)
  fpowner : Option Nat
  hazard : BitVec 32
  trap : Bool
  live : α
  mode : Option Nat
  last : Nat → α

inductive Action (α : Type)
  /-- a new EC for this CPU -/
  | create (e : Nat) (vcpu fpu : Bool) (obj : Word) (stale : Encoding → Word)
  /-- the kernel returns to an EC -/
  | run (e : Nat)
  /-- an instruction that needs the FPU and leaves these contents in it -/
  | use (v : α)
  /-- a guest writes CR0 -/
  | movCr0 (v : Word)
  /-- another exception, an interrupt, a hypercall or another VM exit -/
  | exit
  /-- the VMM replies to a virtual CPU -/
  | reply (e : Nat) (m : BitVec 32) (u : UtcbArch) (caps : Caps)
  /-- a reply on aarch64, and whether it leaves the EC in a legal state -/
  | answer (e : Nat) (legal : Bool)
  | suspend

namespace Cpu

variable {α : Type} (setting : Setting α)

def setEc (e : Nat) (x : Ec α) (s : Cpu α) : Cpu α := { s with ec := Function.update s.ec e (some x) }

/-- `Fpu::disable` -/
def disable (s : Cpu α) : Cpu α := { s with trap := true, hazard := s.hazard &&& ~~~ Hazard.fpu }

/-- `Fpu::enable` -/
def enable (s : Cpu α) : Cpu α := { s with trap := false, hazard := s.hazard ||| Hazard.fpu }

/-- `regs.fpu_ctrl`, which only x86 has and only a virtual CPU needs -/
def control (on : Bool) (x : Ec α) : CpuRegs :=
  if setting.arch = .x86 ∧ x.vcpu then x.regs.fpuCtrl setting.host on else x.regs

/-- `fpu_load` -/
def fpuLoad (e : Nat) (s : Cpu α) : Option (Cpu α) :=
  match s.ec e with
  | none => none
  | some x =>
      match x.fpu with
      | none => none
      | some area =>
          some { s.setEc e { x with regs := (control setting true x).hazardSet Hazard.fpu } with live := area }

/-- `fpu_save` -/
def fpuSave (e : Nat) (s : Cpu α) : Option (Cpu α) :=
  match s.ec e with
  | none => none
  | some x =>
      match x.fpu with
      | none => none
      | some _ =>
          some (s.setEc e { x with fpu := some s.live, regs := (control setting false x).hazardClr Hazard.fpu })

/-- `switch_fpu` after its checks -/
def handOver (ec : Option Nat) (s : Cpu α) : Option (Cpu α) :=
  let s := s.enable
  let saved :=
    match s.fpowner with
    | none => some s
    | some o => s.fpuSave setting o
  saved.bind fun s =>
    let s := { s with fpowner := ec }
    match ec with
    | none => some s
    | some e => s.fpuLoad setting e

/-- `switch_fpu`, which panics when an assertion fails -/
def switchFpu (ec : Option Nat) (s : Cpu α) : Option (Bool × Cpu α) :=
  match ec with
  | none => (s.handOver setting none).map fun s => (true, s)
  | some e =>
      if s.fpowner = some e then none
      else if Hazard.has s.hazard Hazard.fpu then none
      else if ((s.ec e).bind fun x => x.fpu).isNone then some (false, s)
      else (s.handOver setting (some e)).map fun s => (true, s)

/-- The hazards that a return to user mode looks at -/
def retMask : BitVec 32 :=
  Hazard.illegal ||| Hazard.recalled ||| Hazard.fpu ||| Hazard.bootHst ||| Hazard.rcu ||| Hazard.sleep ||| Hazard.sched

/-- The end of `handle_hazard` -/
def handleHazard (h : BitVec 32) (s : Cpu α) : Cpu α :=
  if Hazard.has h Hazard.fpu then (if Hazard.has s.hazard Hazard.fpu then s.disable else s.enable) else s

/-- `handle_vmx`: the VM exit has loaded CR0 from `HOST_CR0`, where `TS` is set. -/
def handleVmx (s : Cpu α) : Cpu α :=
  { s with trap := true, hazard := (s.hazard ||| Hazard.tr) &&& ~~~ Hazard.fpu, mode := none }

/-- The EC is a VMX guest. -/
def guest (x : Ec α) : Bool := setting.arch = .x86 && x.vcpu

/-- `ret_user_hypercall`, `ret_user_exception` and `ret_user_vmexit`; `ret_user_vmexit_vmx` leaves the FPU
to the controls in the VMCS.  An EC in an illegal state is killed. -/
def run (e : Nat) (s : Cpu α) : Cpu α :=
  match s.ec e with
  | none => s
  | some x =>
      if Hazard.has x.regs.hazard Hazard.illegal then s
      else if guest setting x then { s with mode := some e }
      else { s.handleHazard ((s.hazard ^^^ x.regs.hazard) &&& retMask) with mode := some e }

/-- The EC traps into the kernel, which calls `switch_fpu` and then returns or sends a message. -/
def trapped (e : Nat) (s : Cpu α) : Option (Cpu α) := (s.switchFpu setting (some e)).map fun r => { r.2 with mode := none }

/-- `CR0.TS` or `CR0.EM` makes the instruction raise `#NM`. -/
def raisesNm (c : CpuRegs) : Bool := c.vmcs .guestCr0 &&& (cr0Ts ||| cr0Em) ≠ 0#64

def use (v : α) (s : Cpu α) : Option (Cpu α) :=
  match s.mode with
  | none => some s
  | some e =>
      match s.ec e with
      | none => some s
      | some x =>
          if guest setting x then
            if raisesNm x.regs then
              -- the exception goes to the kernel, or to the guest itself
              if (x.regs.vmcs .bitmapExc).setWidth 32 &&& excNm ≠ 0#32 then s.handleVmx.trapped setting e else some s
            else some { s with live := v, last := Function.update s.last e v }
          else if s.trap then s.trapped setting e
          else some { s with live := v, last := Function.update s.last e v }

/-- A guest writes CR0: bits of the mask that would change cause a VM exit. -/
def movCr0 (v : Word) (s : Cpu α) : Cpu α :=
  match s.mode with
  | none => s
  | some e =>
      match s.ec e with
      | none => s
      | some x =>
          let mask := x.regs.vmcs .cr0Mask
          if !guest setting x then s
          else if (v ^^^ x.regs.vmcs .cr0ReadShadow) &&& mask ≠ 0#64 then s.handleVmx
          else s.setEc e { x with regs := x.regs.write .guestCr0 ((v &&& ~~~ mask) ||| (x.regs.vmcs .guestCr0 &&& mask)) }

def exit (s : Cpu α) : Cpu α :=
  match s.mode with
  | none => s
  | some e =>
      match s.ec e with
      | none => s
      | some x => if guest setting x then s.handleVmx else { s with mode := none }

/-- The registers of a new EC -/
def newRegs (vcpu : Bool) (obj : Word) (stale : Encoding → Word) : CpuRegs :=
  let c := CpuRegs.create setting.host obj stale
  if vcpu then c else { c with hazard := 0#32 }

def create (e : Nat) (vcpu fpu : Bool) (obj : Word) (stale : Encoding → Word) (s : Cpu α) : Cpu α :=
  if (s.ec e).isSome then s
  else
    { s.setEc e
        { vcpu := vcpu, fpu := if fpu then some setting.initial else none
          regs := newRegs setting vcpu obj stale, loaded := stale .guestCr0 &&& cr0Ts ≠ 0#64 }
      with last := Function.update s.last e setting.initial }

/-- `sys_ipc_reply` with `save_vmx` -/
def reply (e : Nat) (m : BitVec 32) (u : UtcbArch) (caps : Caps) (s : Cpu α) : Cpu α :=
  match s.ec e with
  | none => s
  | some x =>
      if s.mode = none ∧ guest setting x then
        let (ok, regs) := x.regs.saveVmx setting.host u setting.objects caps m
        s.setEc e { x with
          regs := if ok then regs else regs.hazardSet Hazard.illegal
          loaded := x.loaded || (m &&& Item.poison = 0#32 && m &&& Item.cr ≠ 0#32) }
      else s

def answer (e : Nat) (legal : Bool) (s : Cpu α) : Cpu α :=
  match s.ec e with
  | none => s
  | some x =>
      if s.mode = none ∧ !guest setting x then
        s.setEc e { x with
          regs := if legal then x.regs.hazardClr Hazard.illegal else x.regs.hazardSet Hazard.illegal }
      else s

/-- `Fpu::fini`, and the CPU after it has resumed: `Cpu::init` clears the hazards; `start.S` sets `CR0.TS`,
`Vmcb::init` calls `Fpu::disable`. -/
def suspend (s : Cpu α) : Option (Cpu α) :=
  match s.mode with
  | some _ => some s
  | none => (s.switchFpu setting none).map fun r => { r.2 with trap := true, hazard := 0#32 }

/-- One step; `none` if an assertion fails -/
def act (a : Action α) (s : Cpu α) : Option (Cpu α) :=
  match a with
  | .create e vcpu fpu obj stale => some (s.create setting e vcpu fpu obj stale)
  | .run e => some (if s.mode = none then s.run setting e else s)
  | .use v => s.use setting v
  | .movCr0 v => some (s.movCr0 setting v)
  | .exit => some (s.exit setting)
  | .reply e m u caps => some (s.reply setting e m u caps)
  | .answer e legal => some (s.answer setting e legal)
  | .suspend => s.suspend setting

/-- The CPU has been initialized: `Cpu::init`, after `start.S` or with `Vmcb::init`. -/
def start : Cpu α where
  ec := fun _ => none
  fpowner := none
  hazard := Hazard.bootGst ||| Hazard.bootHst
  trap := true
  live := setting.initial
  mode := none
  last := fun _ => setting.initial

/-! ## What holds of a CPU -/

/-- What the controls and the area of an EC have to do with the owner -/
structure Fits (s : Cpu α) (e : Nat) (x : Ec α) : Prop where
  bit : Hazard.has x.regs.hazard Hazard.fpu = true ↔ s.fpowner = some e
  area : s.fpowner ≠ some e → ∀ a, x.fpu = some a → a = s.last e
  guise : guest setting x = true → x.regs.Guise setting.host
  fpuOn : guest setting x = true → x.regs.fpuOn = decide (s.fpowner = some e)
  forced : guest setting x = true → x.loaded = true → x.regs.Forced

/-- The owner, the ECs and the registers agree. -/
structure Owned (s : Cpu α) : Prop where
  fits : ∀ e x, s.ec e = some x → Fits setting s e x
  eligible : ∀ o, s.fpowner = some o → ∃ x a, s.ec o = some x ∧ x.fpu = some a
  live : ∀ o, s.fpowner = some o → s.live = s.last o

/-- The trap agrees with the hazard of the CPU, after a return to user mode with the owner, and a guest
has its CR0. -/
structure Sound (s : Cpu α) : Prop where
  owned : Owned setting s
  cpu : s.trap = !Hazard.has s.hazard Hazard.fpu
  running : ∀ e, s.mode = some e → ∃ x, s.ec e = some x
  user : ∀ e x, s.mode = some e → s.ec e = some x → guest setting x = false → (s.trap = false ↔ s.fpowner = some e)
  entered : ∀ e x, s.mode = some e → s.ec e = some x → guest setting x = true → x.loaded = true

section Rules

variable {setting : Setting α} {s : Cpu α} {e : Nat} {x : Ec α}

theorem Fits.congr {t : Cpu α} (fits : Fits setting s e x) (owner : t.fpowner = s.fpowner) (last : t.last e = s.last e) :
    Fits setting t e x :=
  ⟨by rw [owner]; exact fits.bit, by rw [owner, last]; exact fits.area, fits.guise, by rw [owner]; exact fits.fpuOn,
    fits.forced⟩

/-- Another EC than the old and the new owner -/
theorem Fits.others {t : Cpu α} (fits : Fits setting s e x) (before : s.fpowner ≠ some e) (after : t.fpowner ≠ some e)
    (last : t.last e = s.last e) : Fits setting t e x := by
  refine ⟨?_, fun _ => ?_, fits.guise, fun vm => ?_, fits.forced⟩
  · refine ⟨fun has => absurd (fits.bit.mp has) before, fun is => absurd is after⟩
  · rw [last]
    exact fits.area before
  · rw [fits.fpuOn vm, decide_eq_false before, decide_eq_false after]

theorem setEc_ec (f : Nat) : (s.setEc e x).ec f = if f = e then some x else s.ec f := Function.update_apply ..

/-- `fpu_ctrl` for a VMX guest -/
theorem control_guest (on : Bool) (vm : guest setting x = true) :
    control setting on x = x.regs.fpuCtrl setting.host on := by
  unfold control
  rw [if_pos (by simpa [guest] using vm)]

/-- An EC after `fpu_save` -/
theorem fits_saved {t : Cpu α} (unowned : t.fpowner ≠ some e) {area : α} (saved : area = t.last e) :
    Fits setting t e { x with fpu := some area, regs := (control setting false x).hazardClr Hazard.fpu } := by
  refine ⟨?_, fun _ a is => ?_, fun vm => ?_, fun vm => ?_, fun vm _ => ?_⟩
  · unfold CpuRegs.hazardClr
    simp only [Hazard.has_fpu_and_not, Bool.false_eq_true, unowned]
  · exact (Option.some.inj is).symm.trans saved
  · apply CpuRegs.Guise.of_visage _ (CpuRegs.visage_hazardClr _)
    rw [control_guest (x := x) false vm]
    exact CpuRegs.guise_fpuCtrl false
  · rw [CpuRegs.fpuOn_of_visage (CpuRegs.visage_hazardClr _), control_guest (x := x) false vm, decide_eq_false unowned]
    rfl
  · apply CpuRegs.Forced.of_visage _ (CpuRegs.visage_hazardClr _)
    rw [control_guest (x := x) false vm]
    exact CpuRegs.forced_fpuCtrl false

/-- An EC after `fpu_load` -/
theorem fits_loaded {t : Cpu α} (owner : t.fpowner = some e) :
    Fits setting t e { x with regs := (control setting true x).hazardSet Hazard.fpu } := by
  refine ⟨?_, fun other => absurd owner other, fun vm => ?_, fun vm => ?_, fun vm _ => ?_⟩
  · unfold CpuRegs.hazardSet
    simp only [Hazard.has_fpu_or, owner]
  · apply CpuRegs.Guise.of_visage _ (CpuRegs.visage_hazardSet _)
    rw [control_guest (x := x) true vm]
    exact CpuRegs.guise_fpuCtrl true
  · rw [CpuRegs.fpuOn_of_visage (CpuRegs.visage_hazardSet _), control_guest (x := x) true vm, decide_eq_true owner]
    rfl
  · apply CpuRegs.Forced.of_visage _ (CpuRegs.visage_hazardSet _)
    rw [control_guest (x := x) true vm]
    exact CpuRegs.forced_fpuCtrl true

/-- Which ECs there are stays as it is. -/
def SameEcs (s t : Cpu α) : Prop := ∀ f y, t.ec f = some y → ∃ x, s.ec f = some x ∧ y.vcpu = x.vcpu ∧ y.loaded = x.loaded

/-- The FPU is enabled and has a new owner. -/
structure HandedOver (setting : Setting α) (s : Cpu α) (owner : Option Nat) (t : Cpu α) : Prop where
  owned : Owned setting t
  owner : t.fpowner = owner
  trap : t.trap = false
  hazard : t.hazard = s.hazard ||| Hazard.fpu
  mode : t.mode = s.mode
  ecs : SameEcs s t

theorem sameEcs_setEc {y : Ec α} (is : s.ec e = some x) (vcpu : y.vcpu = x.vcpu) (loaded : y.loaded = x.loaded) :
    SameEcs s (s.setEc e y) := by
  intro f z at_
  rw [setEc_ec] at at_
  split at at_
  · rename_i same
    subst same
    obtain rfl := Option.some.inj at_
    exact ⟨x, is, vcpu, loaded⟩
  · exact ⟨z, at_, rfl, rfl⟩

/-- The FPU is enabled, and the old owner is saved. -/
structure Saved (setting : Setting α) (s t : Cpu α) : Prop where
  owned : Owned setting { t with fpowner := none }
  trap : t.trap = false
  hazard : t.hazard = s.hazard ||| Hazard.fpu
  mode : t.mode = s.mode
  ecs : SameEcs s t
  others : ∀ f, s.fpowner ≠ some f → t.ec f = s.ec f

theorem saved_alone (owned : Owned setting s) (owner : s.fpowner = none) : Saved setting s s.enable := by
  refine ⟨?_, rfl, rfl, rfl, fun f y at_ => ⟨y, at_, rfl, rfl⟩, fun _ _ => rfl⟩
  refine ⟨fun e x at_ => (owned.fits e x at_).congr owner.symm rfl, nofun, nofun⟩

/-- `fpu_save` of the old owner -/
theorem saved_owner {o : Nat} (owned : Owned setting s) (owner : s.fpowner = some o) :
    ∃ t, s.enable.fpuSave setting o = some t ∧ Saved setting s t := by
  obtain ⟨x, a, is, area⟩ := owned.eligible o owner
  have done : s.enable.fpuSave setting o = some (s.enable.setEc o { x with
      fpu := some s.live, regs := (control setting false x).hazardClr Hazard.fpu }) := by
    simp only [fpuSave, show s.enable.ec o = some x from is, area]
    rfl
  refine ⟨_, done, ⟨fun f y at_ => ?_, nofun, nofun⟩, rfl, rfl, rfl, sameEcs_setEc (s := s.enable) is rfl rfl,
    fun f other => ?_⟩
  · change (s.enable.setEc o _).ec f = some y at at_
    rw [setEc_ec] at at_
    split at at_
    · rename_i same
      subst same
      obtain rfl := Option.some.inj at_
      refine fits_saved ?_ (owned.live f owner)
      exact Option.some_ne_none f |>.symm
    · rename_i differ
      refine (owned.fits f y at_).others ?_ nofun rfl
      rw [owner]
      exact fun same => differ (Option.some.inj same).symm
  · have differ : f ≠ o := fun same => other (owner.trans (congrArg some same.symm))
    rw [setEc_ec, if_neg differ]
    rfl

/-- `fpu_load` of the new owner -/
theorem Saved.load {t : Cpu α} {area : α} (saved : Saved setting s t) (is : t.ec e = some x) (eligible : x.fpu = some area) :
    ∃ u, { t with fpowner := some e }.fpuLoad setting e = some u ∧ HandedOver setting s (some e) u := by
  have done : { t with fpowner := some e }.fpuLoad setting e = some { { t with fpowner := some e }.setEc e { x with
      regs := (control setting true x).hazardSet Hazard.fpu } with live := area } := by
    simp only [fpuLoad, is, eligible]
  refine ⟨_, done, ⟨fun f y at_ => ?_, fun o owner => ?_, fun o owner => ?_⟩, rfl, saved.trap, saved.hazard, saved.mode, ?_⟩
  · change (({ t with fpowner := some e } : Cpu α).setEc e _).ec f = some y at at_
    rw [setEc_ec] at at_
    split at at_
    · rename_i same
      subst same
      obtain rfl := Option.some.inj at_
      exact fits_loaded rfl
    · rename_i differ
      exact (saved.owned.fits f y at_).others nofun (fun same => differ (Option.some.inj same).symm) rfl
  · obtain rfl := Option.some.inj owner
    refine ⟨_, area, (setEc_ec e).trans (if_pos rfl), ?_⟩
    exact eligible
  · obtain rfl := Option.some.inj owner
    exact (saved.owned.fits e x is).area nofun area eligible
  · intro f y at_
    obtain ⟨z, before, vcpu, loaded⟩ := sameEcs_setEc (s := { t with fpowner := some e })
      (y := { x with regs := (control setting true x).hazardSet Hazard.fpu }) is rfl rfl f y at_
    obtain ⟨w, first, vcpu', loaded'⟩ := saved.ecs f z before
    exact ⟨w, first, vcpu.trans vcpu', loaded.trans loaded'⟩

theorem handOver_spec (owned : Owned setting s) (next : Option Nat)
    (eligible : ∀ e, next = some e → s.fpowner ≠ some e ∧ ∃ x a, s.ec e = some x ∧ x.fpu = some a) :
    ∃ t, s.handOver setting next = some t ∧ HandedOver setting s next t := by
  obtain ⟨t, first, saved⟩ : ∃ t, (match s.enable.fpowner with
      | none => some s.enable
      | some o => s.enable.fpuSave setting o) = some t ∧ Saved setting s t := by
    cases owner : s.enable.fpowner with
    | none => exact ⟨s.enable, rfl, saved_alone owned owner⟩
    | some o => exact saved_owner owned owner
  unfold handOver
  dsimp only
  rw [first, Option.bind_some]
  cases next with
  | none => exact ⟨_, rfl, saved.owned, rfl, saved.trap, saved.hazard, saved.mode, saved.ecs⟩
  | some e =>
      obtain ⟨other, x, a, is, area⟩ := eligible e rfl
      exact saved.load ((saved.others e other).trans is) area

/-- `switch_fpu` for an EC: its assertions hold, and the EC gets the FPU if it may use it. -/
theorem switchFpu_spec (owned : Owned setting s) (other : s.fpowner ≠ some e)
    (off : Hazard.has s.hazard Hazard.fpu = false) :
    s.switchFpu setting (some e) = some (false, s) ∨
      ∃ t, s.switchFpu setting (some e) = some (true, t) ∧ HandedOver setting s (some e) t := by
  unfold switchFpu
  dsimp only
  rw [if_neg other, off, if_neg Bool.false_ne_true]
  split
  · exact Or.inl rfl
  · rename_i eligible
    refine Or.inr ?_
    cases is : s.ec e with
    | none =>
        rw [is] at eligible
        exact absurd rfl eligible
    | some x =>
        cases area : x.fpu with
        | none =>
            rw [is, Option.bind_some, area] at eligible
            exact absurd rfl eligible
        | some a =>
            obtain ⟨t, done, handed⟩ := handOver_spec owned (some e) fun f same => by
              obtain rfl := Option.some.inj same
              exact ⟨other, x, a, is, area⟩
            refine ⟨t, ?_, handed⟩
            rw [done, Option.map_some]

/-! ## Steps -/

/-- The kernel executes. -/
theorem Sound.kernel {t : Cpu α} (owned : Owned setting t) (cpu : t.trap = !Hazard.has t.hazard Hazard.fpu)
    (mode : t.mode = none) : Sound setting t := by
  refine ⟨owned, cpu, fun e is => ?_, fun e x is => ?_, fun e x is => ?_⟩
  all_goals
    rw [mode] at is
    cases is

theorem owned_of_eq {t : Cpu α} (owned : Owned setting s) (owner : t.fpowner = s.fpowner) (ecs : t.ec = s.ec)
    (live : t.live = s.live) (last : t.last = s.last) : Owned setting t := by
  refine ⟨fun e x at_ => ?_, fun o is => ?_, fun o is => ?_⟩
  · rw [ecs] at at_
    exact (owned.fits e x at_).congr owner (by rw [last])
  · rw [owner] at is
    rw [ecs]
    exact owned.eligible o is
  · rw [owner] at is
    rw [live, last]
    exact owned.live o is

theorem Sound.handleVmx (sound : Sound setting s) : Sound setting s.handleVmx := by
  refine Sound.kernel (owned_of_eq sound.owned rfl rfl rfl rfl) ?_ rfl
  change true = !Hazard.has ((s.hazard ||| Hazard.tr) &&& ~~~ Hazard.fpu) Hazard.fpu
  rw [Hazard.has_fpu_and_not, Bool.not_false]

theorem Sound.leave (sound : Sound setting s) : Sound setting { s with mode := none } :=
  Sound.kernel (owned_of_eq sound.owned rfl rfl rfl rfl) sound.cpu rfl

/-- The assertions of `switch_fpu` hold, and it keeps everything in order. -/
theorem Sound.trapped (sound : Sound setting s) (other : s.fpowner ≠ some e)
    (off : Hazard.has s.hazard Hazard.fpu = false) : ∃ t, s.trapped setting e = some t ∧ Sound setting t := by
  unfold Cpu.trapped
  rcases switchFpu_spec sound.owned other off with refused | ⟨t, done, handed⟩
  · rw [refused]
    exact ⟨_, rfl, sound.leave⟩
  · rw [done]
    refine ⟨_, rfl, Sound.kernel (owned_of_eq handed.owned rfl rfl rfl rfl) ?_ rfl⟩
    change t.trap = !Hazard.has t.hazard Hazard.fpu
    rw [handed.trap, handed.hazard, Hazard.has_fpu_or, Bool.not_true]

/-- The owner uses the FPU. -/
theorem Sound.used (sound : Sound setting s) (owner : s.fpowner = some e) (v : α) :
    Sound setting { s with live := v, last := Function.update s.last e v } := by
  refine ⟨⟨fun f x at_ => ?_, sound.owned.eligible, fun o is => ?_⟩, sound.cpu, sound.running, sound.user,
    sound.entered⟩
  · by_cases same : f = e
    · subst same
      have fits := sound.owned.fits f x at_
      exact ⟨fits.bit, fun other => absurd owner other, fits.guise, fits.fpuOn, fits.forced⟩
    · exact (sound.owned.fits f x at_).congr rfl (Function.update_of_ne same ..)
  · obtain rfl : e = o := Option.some.inj (owner.symm.trans is)
    change v = Function.update s.last e v e
    rw [Function.update_self]

/-- An EC changes, but neither its ownership nor what is in its area. -/
theorem Sound.change {y : Ec α} (sound : Sound setting s) (is : s.ec e = some x) (fits : Fits setting s e y)
    (vcpu : y.vcpu = x.vcpu) (area : y.fpu = x.fpu) (loaded : x.loaded = true → y.loaded = true) :
    Sound setting (s.setEc e y) := by
  have same : guest setting y = guest setting x := by
    unfold guest
    rw [vcpu]
  refine ⟨⟨fun f z at_ => ?_, fun o owner => ?_, sound.owned.live⟩, sound.cpu, fun f mode => ?_, fun f z mode at_ => ?_,
    fun f z mode at_ => ?_⟩
  · rw [setEc_ec] at at_
    split at at_
    · rename_i here
      subst here
      obtain rfl := Option.some.inj at_
      exact fits.congr rfl rfl
    · exact (sound.owned.fits f z at_).congr rfl rfl
  · obtain ⟨z, a, at_, own⟩ := sound.owned.eligible o owner
    rw [setEc_ec]
    split
    · rename_i here
      subst here
      obtain rfl := Option.some.inj (is.symm.trans at_)
      exact ⟨y, a, rfl, area.trans own⟩
    · exact ⟨z, a, at_, own⟩
  · rw [setEc_ec]
    split
    · exact ⟨y, rfl⟩
    · exact sound.running f mode
  · rw [setEc_ec] at at_
    split at at_
    · rename_i here
      subst here
      obtain rfl := Option.some.inj at_
      rw [same]
      exact sound.user f x mode is
    · exact sound.user f z mode at_
  · rw [setEc_ec] at at_
    split at at_
    · rename_i here
      subst here
      obtain rfl := Option.some.inj at_
      rw [same]
      exact fun vm => loaded (sound.entered f x mode is vm)
    · exact sound.entered f z mode at_

/-- After `handle_hazard` the FPU is enabled exactly if the EC has the hazard. -/
theorem handleHazard_spec (cpu : s.trap = !Hazard.has s.hazard Hazard.fpu) (x : Ec α) :
    let t := s.handleHazard ((s.hazard ^^^ x.regs.hazard) &&& retMask)
    t.trap = (!Hazard.has x.regs.hazard Hazard.fpu) ∧ Hazard.has t.hazard Hazard.fpu = Hazard.has x.regs.hazard Hazard.fpu ∧
      t.ec = s.ec ∧ t.fpowner = s.fpowner ∧ t.live = s.live ∧ t.last = s.last := by
  dsimp only
  unfold handleHazard
  rw [Hazard.has_fpu_xor _ _ _ (by decide)]
  cases here : Hazard.has s.hazard Hazard.fpu with
  | false =>
      cases ec : Hazard.has x.regs.hazard Hazard.fpu with
      | false => exact ⟨cpu.trans (congrArg not here), here, rfl, rfl, rfl, rfl⟩
      | true => exact ⟨rfl, Hazard.has_fpu_or _, rfl, rfl, rfl, rfl⟩
  | true =>
      cases ec : Hazard.has x.regs.hazard Hazard.fpu with
      | false => exact ⟨rfl, Hazard.has_fpu_and_not _, rfl, rfl, rfl, rfl⟩
      | true => exact ⟨cpu.trans (congrArg not here), here, rfl, rfl, rfl, rfl⟩

theorem Sound.run (sound : Sound setting s)
    (loaded : ∀ x, s.ec e = some x → guest setting x = true → x.loaded = true) : Sound setting (s.run setting e) := by
  unfold Cpu.run
  cases is : s.ec e with
  | none => exact sound
  | some x =>
      dsimp only
      split
      · exact sound
      · split
        · rename_i vm
          refine ⟨owned_of_eq sound.owned rfl rfl rfl rfl, sound.cpu, fun f mode => ?_, fun f z mode at_ => ?_,
            fun f z mode at_ => ?_⟩
          all_goals obtain rfl := Option.some.inj mode
          · exact ⟨x, is⟩
          · obtain rfl := Option.some.inj (is.symm.trans at_)
            exact fun host => absurd (vm.symm.trans host) (by decide)
          · obtain rfl := Option.some.inj (is.symm.trans at_)
            exact loaded x is
        · rename_i host
          obtain ⟨trap, hazard, ecs, owner, live, last⟩ := handleHazard_spec sound.cpu x
          generalize s.handleHazard ((s.hazard ^^^ x.regs.hazard) &&& retMask) = t at trap hazard ecs owner live last
          have bit := (sound.owned.fits e x is).bit
          refine ⟨owned_of_eq sound.owned owner ecs live last, ?_, fun f mode => ?_, fun f z mode at_ _ => ?_,
            fun f z mode at_ vm => ?_⟩
          · change t.trap = !Hazard.has t.hazard Hazard.fpu
            rw [trap, hazard]
          all_goals obtain rfl := Option.some.inj mode
          · exact ⟨x, (congrFun ecs e).trans is⟩
          · change t.trap = false ↔ t.fpowner = some e
            rw [trap, owner, ← bit, Bool.not_eq_false']
          · obtain rfl := Option.some.inj (is.symm.trans ((congrFun ecs e).symm.trans at_))
            exact absurd vm host

/-- A guest that does not own the FPU raises `#NM`. -/
theorem Fits.raisesNm (fits : Fits setting s e x) (vm : guest setting x = true) (loaded : x.loaded = true)
    (other : s.fpowner ≠ some e) : raisesNm x.regs = true := by
  have off : x.regs.fpuOn = false := (fits.fpuOn vm).trans (decide_eq_false other)
  have ts := fits.forced vm loaded off
  refine decide_eq_true fun zero => ts ?_
  have none := congrArg (fun w => w &&& cr0Ts) zero
  simpa only [BitVec.and_assoc, show (cr0Ts ||| cr0Em) &&& cr0Ts = cr0Ts by decide, BitVec.zero_and] using none

/-- The bitmap has `#NM` for a guest that owns the FPU only if its VMM asked for it. -/
theorem Fits.intercepted (fits : Fits setting s e x) (vm : guest setting x = true) (owner : s.fpowner = some e)
    (nm : (x.regs.vmcs .bitmapExc).setWidth 32 &&& excNm ≠ 0#32) : x.regs.intcptExc &&& excNm ≠ 0#32 := by
  have on : x.regs.fpuOn = true := (fits.fpuOn vm).trans (decide_eq_true owner)
  intro zero
  apply nm
  rw [(fits.guise vm).exc, CpuRegs.setExc, on, if_pos rfl, BitVec.or_zero,
    BitVec.setWidth_setWidth_of_le _ (by decide), BitVec.setWidth_eq]
  apply BitVec.eq_of_getLsbD_eq
  intro i _
  have bit := congrArg (fun w => BitVec.getLsbD w i) zero
  simp only [BitVec.getLsbD_and, BitVec.getLsbD_or] at bit ⊢
  by_cases seven : i = 7
  · subst seven
    simpa [excAc, excNm] using bit
  · have other : excNm.getLsbD i = false := by
      have twoPow : excNm = BitVec.twoPow 32 7 := rfl
      rw [twoPow, BitVec.getLsbD_twoPow]
      simp only [Bool.and_eq_false_imp, decide_eq_false_iff_not]
      exact fun _ same => seven same.symm
    rw [other]
    simp

/-- What a run must heed: no virtual CPU that owns the FPU raises an `#NM` which its VMM intercepts, and none
enters its guest before CR0 of the guest is set. -/
def heeds (setting : Setting α) (s : Cpu α) : Action α → Bool
  | .use _ =>
      match s.mode with
      | none => true
      | some e =>
          match s.ec e with
          | none => true
          | some x => !(guest setting x && s.fpowner = some e && raisesNm x.regs && x.regs.intcptExc &&& excNm ≠ 0#32)
  | .run e =>
      match s.ec e with
      | none => true
      | some x => !guest setting x || x.loaded
  | _ => true

theorem Sound.use (sound : Sound setting s) (v : α) (heed : heeds setting s (.use v) = true) :
    ∃ t, s.use setting v = some t ∧ Sound setting t := by
  unfold heeds at heed
  unfold Cpu.use
  cases mode : s.mode with
  | none => exact ⟨s, rfl, sound⟩
  | some e =>
      obtain ⟨x, is⟩ := sound.running e mode
      have fits := sound.owned.fits e x is
      rw [mode] at heed
      dsimp only at heed ⊢
      rw [is] at heed ⊢
      dsimp only at heed ⊢
      cases vm : guest setting x with
      | true =>
          rw [if_pos rfl]
          rw [vm] at heed
          split
          · rename_i nm
            split
            · rename_i intercept
              -- the kernel intercepts for itself, so that the guest is not the owner
              have other : s.fpowner ≠ some e := by
                intro owner
                have asked := fits.intercepted vm owner intercept
                simp [owner, nm, asked] at heed
              exact sound.handleVmx.trapped other (Hazard.has_fpu_and_not _)
            · exact ⟨s, rfl, sound⟩
          · rename_i quiet
            have owner : s.fpowner = some e := by
              by_contra other
              exact quiet (fits.raisesNm vm (sound.entered e x mode is vm) other)
            have used := sound.used owner v
            rw [mode] at used
            exact ⟨_, rfl, used⟩
      | false =>
          rw [if_neg Bool.false_ne_true]
          have user := sound.user e x mode is vm
          cases trap : s.trap with
          | true =>
              rw [if_pos rfl]
              have other : s.fpowner ≠ some e := by
                rw [trap] at user
                exact fun owner => absurd (user.mpr owner) (by decide)
              refine sound.trapped other ?_
              have cpu := sound.cpu
              rw [trap] at cpu
              simpa using cpu.symm
          | false =>
              rw [if_neg Bool.false_ne_true]
              have used := sound.used (user.mp trap) v
              rw [mode, trap] at used
              exact ⟨_, rfl, used⟩

theorem Sound.movCr0 (sound : Sound setting s) (v : Word) : Sound setting (s.movCr0 setting v) := by
  unfold Cpu.movCr0
  cases mode : s.mode with
  | none => exact sound
  | some e =>
      obtain ⟨x, is⟩ := sound.running e mode
      have fits := sound.owned.fits e x is
      dsimp only
      rw [is]
      dsimp only
      split
      · exact sound
      · split
        · exact sound.handleVmx
        · refine sound.change is ⟨fits.bit, fits.area, fun vm => ?_, fits.fpuOn, fun vm loaded => ?_⟩ rfl rfl id
          · exact ⟨(fits.guise vm).mask, (fits.guise vm).exc⟩
          · intro off
            change x.regs.fpuOn = false at off
            -- `TS` is in the mask, so that the guest cannot clear it
            have masked : (x.regs.vmcs .cr0Mask).getLsbD 3 = true := by
              rw [(fits.guise vm).mask, CpuRegs.mskCr0, CpuRegs.setCr0, off, if_neg Bool.false_ne_true]
              simp [cr0Ts]
            have old := (CpuRegs.ts_iff _).mp (fits.forced vm loaded off)
            simp only [CpuRegs.write, Function.update_self]
            rw [CpuRegs.ts_iff, BitVec.getLsbD_or, BitVec.getLsbD_and, BitVec.getLsbD_and, masked, old, Bool.and_true,
              Bool.or_true]

theorem Sound.exit (sound : Sound setting s) : Sound setting (s.exit setting) := by
  unfold Cpu.exit
  cases mode : s.mode with
  | none => exact sound
  | some e =>
      obtain ⟨x, is⟩ := sound.running e mode
      dsimp only
      rw [is]
      dsimp only
      split
      · exact sound.handleVmx
      · exact sound.leave

/-- An EC whose registers are those that `save_vmx` left, except for the hazard of an illegal state -/
theorem Fits.replied {regs : CpuRegs} {loaded : Bool} (m : BitVec 32) (u : UtcbArch) (caps : Caps) (fits : Fits setting s e x)
    (visage : regs.visage = (x.regs.saveVmx setting.host u setting.objects caps m).2.visage)
    (hazard : Hazard.has regs.hazard Hazard.fpu = Hazard.has x.regs.hazard Hazard.fpu)
    (transfers : loaded = (x.loaded || (m &&& Item.poison = 0#32 && m &&& Item.cr ≠ 0#32))) :
    Fits setting s e { x with regs := regs, loaded := loaded } := by
  refine ⟨?_, fits.area, fun vm => ?_, fun vm => ?_, fun vm isLoaded => ?_⟩
  · rw [← fits.bit]
    dsimp only
    rw [hazard]
  · exact (CpuRegs.saveVmx_guise (fits.guise vm)).of_visage visage
  · exact ((CpuRegs.fpuOn_of_visage visage).trans CpuRegs.saveVmx_fpuOn).trans (fits.fpuOn vm)
  · refine CpuRegs.Forced.of_visage ?_ visage
    dsimp only at isLoaded
    rw [transfers, Bool.or_eq_true, Bool.and_eq_true, decide_eq_true_iff, decide_eq_true_iff] at isLoaded
    rcases isLoaded with before | ⟨clean, transferred⟩
    · exact CpuRegs.saveVmx_forced (fits.forced vm before)
    · exact CpuRegs.saveVmx_transferred clean transferred

theorem Sound.reply (sound : Sound setting s) (m : BitVec 32) (u : UtcbArch) (caps : Caps) :
    Sound setting (s.reply setting e m u caps) := by
  unfold Cpu.reply
  cases is : s.ec e with
  | none => exact sound
  | some x =>
      dsimp only
      split
      · have fits := sound.owned.fits e x is
        refine sound.change is (fits.replied m u caps ?_ ?_ rfl) rfl rfl fun before => ?_
        · split
          · rfl
          · exact CpuRegs.visage_hazardSet _
        · split
          · exact CpuRegs.saveVmx_hazard
          · rw [CpuRegs.hazardSet, Hazard.has_fpu_illegal, CpuRegs.saveVmx_hazard]
        · dsimp only
          rw [before, Bool.true_or]
      · exact sound

theorem Sound.answer (sound : Sound setting s) (legal : Bool) : Sound setting (s.answer setting e legal) := by
  unfold Cpu.answer
  cases is : s.ec e with
  | none => exact sound
  | some x =>
      dsimp only
      split
      · rename_i allowed
        have fits := sound.owned.fits e x is
        have host : guest setting x = false := by simpa using allowed.2
        have never : ¬ guest setting x = true := by rw [host]; exact Bool.false_ne_true
        refine sound.change is ⟨?_, fits.area, fun vm => absurd vm never, fun vm => absurd vm never,
          fun vm => absurd vm never⟩ rfl rfl id
        rw [← fits.bit]
        dsimp only
        split
        · rw [CpuRegs.hazardClr, Hazard.has_fpu_not_illegal]
        · rw [CpuRegs.hazardSet, Hazard.has_fpu_illegal]
      · exact sound

theorem Sound.create (sound : Sound setting s) (vcpu fpu : Bool) (obj : Word) (stale : Encoding → Word) :
    Sound setting (s.create setting e vcpu fpu obj stale) := by
  unfold Cpu.create
  split
  · exact sound
  · rename_i fresh
    have none_ : s.ec e = none := by simpa using fresh
    have unowned : s.fpowner ≠ some e := by
      intro owner
      obtain ⟨x, a, is, -⟩ := sound.owned.eligible e owner
      rw [none_] at is
      cases is
    have idle : s.mode ≠ some e := by
      intro mode
      obtain ⟨x, is⟩ := sound.running e mode
      rw [none_] at is
      cases is
    have visage : (newRegs setting vcpu obj stale).visage = (CpuRegs.create setting.host obj stale).visage := by
      unfold newRegs
      dsimp only
      split <;> rfl
    have others : ∀ {y : Ec α} (f : Nat) (x : Ec α), s.ec f = some x → (s.setEc e y).ec f = some x := by
      intro y f x is
      have differ : f ≠ e := by
        rintro rfl
        rw [none_] at is
        cases is
      rw [setEc_ec, if_neg differ, is]
    have running : ∀ {y : Ec α} (f : Nat) (x : Ec α), s.mode = some f → (s.setEc e y).ec f = some x → s.ec f = some x := by
      intro y f x mode at_
      have differ : f ≠ e := fun same => idle (mode.trans (congrArg some same))
      rwa [setEc_ec, if_neg differ] at at_
    refine ⟨⟨fun f x at_ => ?_, fun o owner => ?_, fun o owner => ?_⟩, sound.cpu, fun f mode => ?_, fun f x mode at_ => ?_,
      fun f x mode at_ => ?_⟩
    · change (s.setEc e _).ec f = some x at at_
      rw [setEc_ec] at at_
      split at at_
      · rename_i same
        subst same
        obtain rfl := Option.some.inj at_
        refine ⟨?_, fun _ a is => ?_, fun vm => ?_, fun vm => ?_, fun vm loaded => ?_⟩
        · refine ⟨fun has => ?_, fun owner => absurd owner unowned⟩
          cases vcpu with
          | true => exact absurd has (by change ¬ Hazard.has Hazard.illegal Hazard.fpu = true; decide)
          | false => exact absurd has (by change ¬ Hazard.has 0#32 Hazard.fpu = true; decide)
        · change a = Function.update s.last f setting.initial f
          rw [Function.update_self]
          dsimp only at is
          split at is
          · exact (Option.some.inj is).symm
          · cases is
        · exact CpuRegs.Guise.of_visage (CpuRegs.guise_create obj stale) visage
        · exact (CpuRegs.fpuOn_of_visage visage).trans (decide_eq_false unowned).symm
        · refine CpuRegs.Forced.of_visage (fun _ => ?_) visage
          exact of_decide_eq_true loaded
      · rename_i differ
        exact (sound.owned.fits f x at_).congr rfl (Function.update_of_ne differ ..)
    · obtain ⟨x, a, is, area⟩ := sound.owned.eligible o owner
      exact ⟨x, a, others o x is, area⟩
    · have differ : o ≠ e := fun same => unowned (owner.trans (congrArg some same))
      change s.live = Function.update s.last e setting.initial o
      rw [Function.update_of_ne differ]
      exact sound.owned.live o owner
    · obtain ⟨x, is⟩ := sound.running f mode
      exact ⟨x, others f x is⟩
    · exact sound.user f x mode (running f x mode at_)
    · exact sound.entered f x mode (running f x mode at_)

theorem Sound.suspend (sound : Sound setting s) : ∃ t, s.suspend setting = some t ∧ Sound setting t := by
  unfold Cpu.suspend
  cases mode : s.mode with
  | some e => exact ⟨s, rfl, sound⟩
  | none =>
      obtain ⟨t, done, handed⟩ := handOver_spec sound.owned none nofun
      dsimp only
      unfold switchFpu
      dsimp only
      rw [done, Option.map_some, Option.map_some]
      have disabled : true = !Hazard.has 0#32 Hazard.fpu := by decide
      exact ⟨_, rfl, Sound.kernel (owned_of_eq handed.owned rfl rfl rfl rfl) disabled (handed.mode.trans mode)⟩

theorem Sound.act (sound : Sound setting s) (a : Action α) (heed : heeds setting s a = true) :
    ∃ t, s.act setting a = some t ∧ Sound setting t := by
  cases a with
  | create e vcpu fpu obj stale => exact ⟨_, rfl, sound.create vcpu fpu obj stale⟩
  | run e =>
      unfold Cpu.act
      dsimp only
      split
      · refine ⟨_, rfl, sound.run fun x is vm => ?_⟩
        unfold heeds at heed
        dsimp only at heed
        rw [is] at heed
        dsimp only at heed
        rw [vm] at heed
        exact heed
      · exact ⟨s, rfl, sound⟩
  | use v => exact sound.use v heed
  | movCr0 v => exact ⟨_, rfl, sound.movCr0 v⟩
  | exit => exact ⟨_, rfl, sound.exit⟩
  | reply e m u caps => exact ⟨_, rfl, sound.reply m u caps⟩
  | answer e legal => exact ⟨_, rfl, sound.answer legal⟩
  | suspend => exact sound.suspend

theorem sound_start : Sound setting (start setting) := by
  have disabled : true = !Hazard.has (Hazard.bootGst ||| Hazard.bootHst) Hazard.fpu := by decide
  exact Sound.kernel ⟨nofun, nofun, nofun⟩ disabled rfl

end Rules

/-! ## Runs -/

/-- The EC can execute an instruction that needs the FPU. -/
def usable (s : Cpu α) (x : Ec α) : Bool := if guest setting x then !raisesNm x.regs else !s.trap

/-- **Lazy FPU ownership**: exactly the owner has the hazard; a host EC in user mode finds the FPU enabled
exactly if it is the owner, and a guest is free of the forced `CR0.TS` and of the `#NM` intercept of the
kernel exactly if its virtual CPU is; then `CR0.TS` is its own, and only an intercept of its VMM masks it, if
VMX does not fix that bit; what an EC can observe is what it left there last, and the areas of
all others hold what these left. -/
structure Lazy (s : Cpu α) : Prop where
  owner : ∀ e, s.fpowner = some e → ∃ x, s.ec e = some x
  hazard : ∀ e x, s.ec e = some x → (Hazard.has x.regs.hazard Hazard.fpu = true ↔ s.fpowner = some e)
  user : ∀ e x, s.mode = some e → s.ec e = some x → guest setting x = false → (s.trap = false ↔ s.fpowner = some e)
  guest : ∀ e x, s.mode = some e → s.ec e = some x → guest setting x = true →
    (x.regs.fpuOn = true ↔ s.fpowner = some e) ∧ x.regs.Guise setting.host ∧ x.regs.Forced
  ts : ∀ e x, s.mode = some e → s.ec e = some x → Cpu.guest setting x = true → s.fpowner = some e →
    cr0Ts &&& (setting.host.fixCr0Set ||| setting.host.fixCr0Clr) = 0#64 →
    x.regs.vmcs .guestCr0 &&& cr0Ts = x.regs.vmxGetGstCr0 setting.host &&& cr0Ts ∧
      x.regs.vmcs .cr0Mask &&& cr0Ts = x.regs.intcptCr0 &&& cr0Ts
  observes : ∀ e x, s.mode = some e → s.ec e = some x → usable setting s x = true → s.live = s.last e
  live : ∀ e, s.fpowner = some e → s.live = s.last e
  areas : ∀ e x a, s.ec e = some x → s.fpowner ≠ some e → x.fpu = some a → a = s.last e

theorem Sound.lazy {s : Cpu α} (sound : Sound setting s) : Lazy setting s := by
  refine ⟨fun e owner => ?_, fun e x is => (sound.owned.fits e x is).bit, sound.user, fun e x mode is vm => ?_,
    fun e x _ is vm owner free => ?_, fun e x mode is can => ?_, sound.owned.live,
    fun e x a is => fun other => (sound.owned.fits e x is).area other a⟩
  · obtain ⟨x, -, is, -⟩ := sound.owned.eligible e owner
    exact ⟨x, is⟩
  · have fits := sound.owned.fits e x is
    refine ⟨?_, fits.guise vm, fits.forced vm (sound.entered e x mode is vm)⟩
    rw [fits.fpuOn vm, decide_eq_true_iff]
  · have fits := sound.owned.fits e x is
    exact CpuRegs.ts_own ((fits.fpuOn vm).trans (decide_eq_true owner)) free (fits.guise vm)
  · apply sound.owned.live
    unfold usable at can
    cases vm : Cpu.guest setting x with
    | true =>
        rw [vm, if_pos rfl] at can
        by_contra other
        rw [(sound.owned.fits e x is).raisesNm vm (sound.entered e x mode is vm) other] at can
        cases can
    | false =>
        rw [vm, if_neg Bool.false_ne_true] at can
        refine (sound.user e x mode is vm).mp ?_
        simpa using can

/-- **No assertion fails and ownership is lazy**, in every run that heeds the condition. -/
theorem fpu_lazy (actions : List (Action α))
    (legal : Legal (act setting) (fun s a => heeds setting s a = true) (start setting) actions) :
    ∃ s, runs (act setting) (start setting) actions = some s ∧ Lazy setting s := by
  obtain ⟨s, done, sound⟩ := Legal.safe (I := Sound setting) (fun s a sound heed => sound.act a heed) actions _
    sound_start legal
  exact ⟨s, done, sound.lazy⟩

/-- A CPU with VMX.  The object space of the PD and its three other spaces are at the addresses 0x1000 to 0x4000. -/
def vmxCpu : Setting Nat where
  arch := .x86
  host :=
    { cpuPriSet := 0#32, cpuPriClr := 0#32, cpuSecSet := 0#32, cpuSecClr := 0#32, cpuTerSet := 0#64, cpuTerClr := 0#64
      fixCr0Set := 0x20#64, fixCr0Clr := 0x60000000#64, fixCr4Set := 0x2000#64, fixCr4Clr := 0#64, xcr := 7#64, xss := 0#64 }
  objects :=
    { type := fun _ => .pd
      subtype := fun o => if o = 0x2000#64 then .gst else if o = 0x3000#64 then .pio else .msr
      pd := fun _ => 0x5000#64
      phys := fun o => o }
  initial := 0

/-- Capabilities for the three spaces -/
def vmmCaps : Caps := fun k =>
  if k.val = 1 then .ofObject 0x2000#64 Perm.spAssign
  else if k.val = 2 then .ofObject 0x3000#64 Perm.spAssign
  else if k.val = 3 then .ofObject 0x4000#64 Perm.spAssign
  else .null

/-- The VMM starts a guest with this CR0 and these exceptions intercepted. -/
def vmmStart (cr0 : Word) (exc : BitVec 32) : Action Nat :=
  .reply 0 (Item.spaces ||| Item.cr ||| Item.ctrl)
    { (default : UtcbArch) with cr0 := cr0, intcptExc := exc, selGst := 1#64, selPio := 2#64, selMsr := 3#64 } vmmCaps

/-- A guest and a host EC take turns at the FPU, with a suspend in between. -/
def turns : List (Action Nat) :=
  [.create 0 true true 0x1000#64 (fun _ => 0#64), .create 1 false true 0x1000#64 (fun _ => 0#64), vmmStart 0x21#64 0#32,
    .run 0, .use 5, .run 0, .use 5, .exit, .run 1, .use 9, .run 1, .use 9, .exit, .suspend, .run 0, .use 6, .run 0, .use 6]

theorem fpu_lazy_turns : ∃ s, runs (act vmxCpu) (start vmxCpu) turns = some s ∧ Lazy vmxCpu s :=
  fpu_lazy vmxCpu turns (by decide +kernel)

/-- **The assertion fails**: the VMM intercepts `#NM`, the guest has set `CR0.TS`.  Its first instruction
gets it the FPU, the second raises `#NM` again, for the VMM, but `vmx_exception` calls `switch_fpu`. -/
theorem not_lazy_intercepted : ¬ ∃ s, runs (act vmxCpu) (start vmxCpu)
    [.create 0 true true 0x1000#64 (fun _ => 0#64), vmmStart 0x29#64 excNm, .run 0, .use 1, .run 0, .use 1] = some s ∧
      Lazy vmxCpu s := by
  have panics : runs (act vmxCpu) (start vmxCpu)
      [.create 0 true true 0x1000#64 (fun _ => 0#64), vmmStart 0x29#64 excNm, .run 0, .use 1, .run 0, .use 1] = none := by
    rfl
  rw [panics]
  rintro ⟨s, is, -⟩
  cases is

/-- Nor does the constructor force `CR0.TS`: a guest whose VMM never transfers CR0 runs with what the memory of
the VMCS held before, and reads what another EC left in the registers. -/
theorem not_lazy_stale : ∃ s x, runs (act vmxCpu) (start vmxCpu)
    [.create 1 false true 0x1000#64 (fun _ => 0#64), .run 1, .use 9, .run 1, .use 9, .exit,
      .create 0 true true 0x1000#64 (fun f => if f = .guestCr0 then 0x21#64 else 0#64),
      .reply 0 Item.spaces { (default : UtcbArch) with selGst := 1#64, selPio := 2#64, selMsr := 3#64 } vmmCaps, .run 0] = some s ∧
    s.ec 0 = some x ∧ s.mode = some 0 ∧ usable vmxCpu s x = true ∧ s.live = 9 ∧ s.last 0 = 0 :=
  ⟨_, _, rfl, rfl, rfl, by decide +kernel, rfl, rfl⟩

end Cpu

end Nova.Kernel.Fpu
