/-
# Nova.Kernel.ArmTransfer — messages about an exception, there and back (aarch64)

`Utcb_arch::load` of `src/aarch64/utcb_arch.cpp` writes the registers of a thread or of a
virtual CPU into the UTCB of its VMM; `save` (Nova.Kernel.ArmRegs) takes them from there.
A virtual CPU has a `Vmcb`, a thread has not.

The items that go both ways are `ExcPart`, which a thread has as well, and `VmcbPart`.  What
was loaded can be saved without a change (`arm_transfer`), but for three things that `save`
does not take as they are: `HCR_EL2` gets the bits that the hypervisor wants, a thread keeps
nothing of its SPSR but the condition flags, and a GICv2 has no place for some bits of a
list register.

The UTCB has list registers in the layout of GICv3.  `lrV3` and `lrV2` convert from and to
the layout of GICv2; both are the identity on the fields that the two have in common.
-/
import Nova.Kernel.ArmRegs
import Nova.Theory.Transfers

namespace Nova.Kernel.Arm

open Nova.Theory.Words
open Nova.Theory.Transfers

set_option autoImplicit false

/-! ## List registers -/

/-- A list register of GICv2, in the layout of GICv3 -/
def lrV3 (lr : Word) : Word :=
  (lr &&& 0x30000000#64) <<< 34 ||| (lr &&& 0xc0000000#64) <<< 30 ||| (lr &&& 0x0f800000#64) <<< 28 |||
    (lr &&& 0x000ffc00#64) <<< 22 ||| (lr &&& 0x3ff#64)

/-- The bits that are defined in a list register of GICv2 -/
def definedV2 : Word := 0xff8fffff#64

/-- … and those of GICv3 that have a place there -/
def definedV3 : Word := 0xf0f803ff000003ff#64

/-- A field of a list register: where it is in GICv2, where in GICv3, and how many bits it has -/
structure LrField where
  v2 : Nat
  v3 : Nat
  width : Nat

/-- State, HW, group, priority, and the physical and virtual INTID -/
def lrFields : List LrField := [⟨28, 62, 2⟩, ⟨31, 61, 1⟩, ⟨30, 60, 1⟩, ⟨23, 51, 5⟩, ⟨10, 32, 10⟩, ⟨0, 0, 10⟩]

/-- The bit of GICv2 that becomes the bit `i` of GICv3 … -/
def bitV3 (i : Nat) : Option Nat := (lrFields.find? fun f => f.v3 ≤ i ∧ i < f.v3 + f.width).map fun f => f.v2 + (i - f.v3)

/-- … and the other way round -/
def bitV2 (i : Nat) : Option Nat := (lrFields.find? fun f => f.v2 ≤ i ∧ i < f.v2 + f.width).map fun f => f.v3 + (i - f.v2)

/-- A bit of a field that is moved up … -/
theorem up_bit (lr mask : Word) (k : Nat) {i : Nat} (small : i < 64) :
    ((lr &&& mask) <<< k).getLsbD i = (lr.getLsbD (i - k) && (mask <<< k).getLsbD i) := by
  rw [BitVec.getLsbD_shiftLeft, BitVec.getLsbD_shiftLeft, BitVec.getLsbD_and]
  cases decide (i < k) <;> simp [small]

/-- … or down -/
theorem down_bit (lr mask : Word) (k i : Nat) :
    ((lr &&& mask) >>> k).getLsbD i = (lr.getLsbD (k + i) && (mask >>> k).getLsbD i) := by
  rw [BitVec.getLsbD_ushiftRight, BitVec.getLsbD_ushiftRight, BitVec.getLsbD_and]

/-- Of several bits at most one is looked at. -/
theorem pick (b : Nat → Bool) {a₁ a₂ a₃ a₄ a₅ : Bool} {j₁ j₂ j₃ j₄ j₅ : Nat} {source : Option Nat}
    (one : [a₁, a₂, a₃, a₄, a₅].count true ≤ 1)
    (which : source = if a₁ then some j₁ else if a₂ then some j₂ else if a₃ then some j₃ else if a₄ then some j₄
      else if a₅ then some j₅ else none) :
    (b j₁ && a₁ || b j₂ && a₂ || b j₃ && a₃ || b j₄ && a₄ || b j₅ && a₅) = (source.map b).getD false := by
  subst which
  cases a₁ <;> cases a₂ <;> cases a₃ <;> cases a₄ <;> cases a₅ <;> simp_all

theorem lrV3_bit (lr : Word) : ∀ i < 64, (lrV3 lr).getLsbD i = ((bitV3 i).map lr.getLsbD).getD false := by
  intro i small
  unfold lrV3
  rw [BitVec.getLsbD_or, BitVec.getLsbD_or, BitVec.getLsbD_or, BitVec.getLsbD_or, up_bit _ _ _ small, up_bit _ _ _ small,
    up_bit _ _ _ small, up_bit _ _ _ small, BitVec.getLsbD_and]
  refine pick lr.getLsbD ?_ ?_
  · revert i
    decide
  · revert i
    decide

theorem lrV2_bit (lr : Word) : ∀ i < 64, (lrV2 lr).getLsbD i = ((bitV2 i).map lr.getLsbD).getD false := by
  intro i small
  unfold lrV2
  rw [BitVec.getLsbD_or, BitVec.getLsbD_or, BitVec.getLsbD_or, BitVec.getLsbD_or, down_bit, down_bit, down_bit, down_bit,
    BitVec.getLsbD_and]
  refine pick lr.getLsbD ?_ ?_
  · revert i
    decide
  · revert i
    decide

theorem lrV3_lrV2 (lr : Word) : lrV3 (lrV2 lr) = lr &&& definedV3 := by
  have whole : ∀ i < 64, definedV3.getLsbD i = (bitV3 i).isSome := by decide
  have back : ∀ i < 64, (bitV3 i).all (fun j => j < 64 ∧ bitV2 j = some i) = true := by decide
  apply BitVec.eq_of_getLsbD_eq
  intro i small
  have back := back i small
  have whole := whole i small
  rw [lrV3_bit _ i small, BitVec.getLsbD_and]
  cases source : bitV3 i with
  | none =>
      rw [source] at whole
      rw [whole, Option.isSome_none, Bool.and_false]
      rfl
  | some j =>
      rw [source] at back whole
      obtain ⟨inside, same⟩ := of_decide_eq_true back
      rw [whole, Option.isSome_some, Bool.and_true, Option.map_some, Option.getD_some, lrV2_bit lr j inside, same]
      rfl

section Loads

variable (host : Host) (e : ExcRegs) (v : Vmcb)

/-- `Exc_regs::ep` -/
def ExcRegs.ep (e : ExcRegs) : Nat := (e.esr >>> 26).toNat

/-- `BIT64_RANGE (0x35, 0x34) | BIT64_RANGE (0x25, 0x24) | BIT64_RANGE (0x22, 0x20)`: the events that set FAR -/
def farEvents : Word := 0x30003700000000#64

/-- `BIT64_RANGE (0x25, 0x24) | BIT64_RANGE (0x21, 0x20)`: the events that set HPFAR -/
def hpfarEvents : Word := 0x3300000000#64

/-- The items of a thread -/
def excLoads : List (BitVec 32 × (UtcbArch → UtcbArch)) :=
  [(Item.gpr, fun u => { u with gpr := e.gpr }),
    (Item.el0Sp, fun u => { u with el0 := { u.el0 with sp := e.el0.sp } }),
    (Item.el0Idr, fun u => { u with el0 := { u.el0 with tpidr := e.el0.tpidr, tpidrro := e.el0.tpidrro } }),
    (Item.el2ElrSpsr, fun u => { u with elr := e.elr, spsr := e.spsr }),
    (Item.el2EsrFar, fun u => { u with
      esr := e.esr, far := if farEvents &&& 1#64 <<< e.ep ≠ 0#64 then e.far else 0#64 })]

def loadGic (g : Gic) : Gic :=
  { lr := fun i => if i.val < host.numLr then (if host.gicRegs then v.gic.lr i else lrV3 (v.gic.lr i)) else g.lr i
    ap0r := fun i => if i.val < host.numApr then v.gic.ap0r i else g.ap0r i
    ap1r := fun i => if i.val < host.numApr then v.gic.ap1r i else g.ap1r i
    elrsr := v.gic.elrsr
    vmcr := v.gic.vmcr }

/-- … and those that only a virtual CPU has -/
def vmcbLoads : List (BitVec 32 × (UtcbArch → UtcbArch)) :=
  [(Item.a32Spsr, fun u => { u with a32 := { u.a32 with
      spsrAbt := v.a32.spsrAbt, spsrFiq := v.a32.spsrFiq, spsrIrq := v.a32.spsrIrq, spsrUnd := v.a32.spsrUnd } }),
    (Item.a32Dih, fun u => { u with a32 := { u.a32 with dacr := v.a32.dacr, ifsr := v.a32.ifsr, hstr := v.a32.hstr } }),
    (Item.el1Sp, fun u => { u with el1 := { u.el1 with sp := v.el1.sp } }),
    (Item.el1Idr, fun u => { u with el1 := { u.el1 with tpidr := v.el1.tpidr, contextidr := v.el1.contextidr } }),
    (Item.el1ElrSpsr, fun u => { u with el1 := { u.el1 with elr := v.el1.elr, spsr := v.el1.spsr } }),
    (Item.el1EsrFar, fun u => { u with el1 := { u.el1 with esr := v.el1.esr, far := v.el1.far } }),
    (Item.el1Afsr, fun u => { u with el1 := { u.el1 with afsr0 := v.el1.afsr0, afsr1 := v.el1.afsr1 } }),
    (Item.el1Ttbr, fun u => { u with el1 := { u.el1 with ttbr0 := v.el1.ttbr0, ttbr1 := v.el1.ttbr1 } }),
    (Item.el1Tcr, fun u => { u with el1 := { u.el1 with tcr := v.el1.tcr } }),
    (Item.el1Mair, fun u => { u with el1 := { u.el1 with mair := v.el1.mair, amair := v.el1.amair } }),
    (Item.el1Vbar, fun u => { u with el1 := { u.el1 with vbar := v.el1.vbar } }),
    (Item.el1Sctlr, fun u => { u with el1 := { u.el1 with sctlr := v.el1.sctlr } }),
    (Item.el1Mdscr, fun u => { u with el1 := { u.el1 with mdscr := v.el1.mdscr } }),
    (Item.el2Hcr, fun u => { u with hcr := v.hcr }),
    (Item.el2Idr, fun u => { u with vpidr := v.vpidr, vmpidr := v.vmpidr }),
    (Item.el2Hpfar, fun u => { u with hpfar := if hpfarEvents &&& 1#64 <<< e.ep ≠ 0#64 then v.hpfar else 0#64 }),
    (Item.tmr, fun u => { u with tmr := v.tmr }),
    (Item.gic, fun u => { u with gic := loadGic host v u.gic })]

def UtcbArch.load (c : CpuRegs) (m : BitVec 32) (u : UtcbArch) : UtcbArch :=
  let u := transfer m (excLoads c.exc) u
  match c.vmcb with
  | none => u
  | some v => transfer m (vmcbLoads host c.exc v) u

end Loads

/-! ## The items that go both ways -/

inductive ExcPart where
  | gpr | el0Sp | el0Idr | elrSpsr

namespace ExcPart

def mask : ExcPart → BitVec 32
  | gpr => Item.gpr
  | el0Sp => Item.el0Sp
  | el0Idr => Item.el0Idr
  | elrSpsr => Item.el2ElrSpsr

@[reducible] def Data : ExcPart → Type
  | gpr => Fin 31 → Word
  | el0Sp => Word
  | el0Idr | elrSpsr => Word × Word

def field : (p : ExcPart) → UtcbArch → p.Data
  | gpr, u => u.gpr
  | el0Sp, u => u.el0.sp
  | el0Idr, u => (u.el0.tpidr, u.el0.tpidrro)
  | elrSpsr, u => (u.elr, u.spsr)

def view : (p : ExcPart) → ExcRegs → p.Data
  | gpr, e => e.gpr
  | el0Sp, e => e.el0.sp
  | el0Idr, e => (e.el0.tpidr, e.el0.tpidrro)
  | elrSpsr, e => (e.elr, e.spsr)

/-- A thread keeps only the condition flags. -/
def constrain (vcpu : Bool) : (p : ExcPart) → p.Data → p.Data
  | gpr, d => d
  | el0Sp, d => d
  | el0Idr, d => d
  | elrSpsr, d => (d.1, if vcpu then d.2 else d.2 &&& nzcv)

theorem constrain_again (vcpu : Bool) (p : ExcPart) (d : p.Data) : p.constrain vcpu (p.constrain vcpu d) = p.constrain vcpu d := by
  cases p with
  | elrSpsr =>
      cases vcpu
      · exact Prod.ext rfl (by simp [constrain, BitVec.and_assoc])
      · rfl
  | _ => rfl

def saves (vcpu : Bool) (u : UtcbArch) : List (BitVec 32 × (ExcRegs → ExcRegs)) :=
  excItems u ++ [(Item.el2ElrSpsr, saveElrSpsr u vcpu)]

def exchange (vcpu : Bool) : Exchange 32 ExcRegs UtcbArch ExcPart Unit where
  Data := Data
  State := Data
  env := fun _ => ()
  saves := saves vcpu
  loads := excLoads
  mask := mask
  field := field
  view := view
  put := fun p _ => p.constrain vcpu
  get := fun _ _ d => d
  constrain := constrain vcpu
  save_env := fun _ _ _ _ => rfl
  save_own := by
    intro p u _
    simp only [Owns, saves, excItems, List.cons_append, List.nil_append, List.forall_mem_cons]
    cases p <;> refine ⟨?_, ?_, ?_, ?_, nofun⟩
    all_goals
      first
      | exact .inl ⟨rfl, fun _ _ => rfl⟩
      | exact .inr ⟨by decide, fun _ => rfl⟩
  save_item := by
    intro p u
    cases p <;> simp [saves, excItems, mask]
  load_own := by
    intro p e
    simp only [Owns, excLoads, List.forall_mem_cons]
    cases p <;> refine ⟨?_, ?_, ?_, ?_, ?_, nofun⟩
    all_goals
      first
      | exact .inl ⟨rfl, fun _ _ => rfl⟩
      | exact .inr ⟨by decide, fun _ => rfl⟩
  load_item := by
    intro p e
    cases p <;> simp [excLoads, mask]
  get_put := fun _ _ _ => rfl
  put_constrain := fun p _ d => p.constrain_again vcpu d

end ExcPart

inductive VmcbPart where
  | a32Spsr | a32Dih | el1Sp | el1Idr | el1ElrSpsr | el1EsrFar | el1Afsr | el1Ttbr | el1Tcr | el1Mair | el1Vbar | el1Sctlr
  | el1Mdscr | hcr | idr | tmr | gic

namespace VmcbPart

def mask : VmcbPart → BitVec 32
  | a32Spsr => Item.a32Spsr
  | a32Dih => Item.a32Dih
  | el1Sp => Item.el1Sp
  | el1Idr => Item.el1Idr
  | el1ElrSpsr => Item.el1ElrSpsr
  | el1EsrFar => Item.el1EsrFar
  | el1Afsr => Item.el1Afsr
  | el1Ttbr => Item.el1Ttbr
  | el1Tcr => Item.el1Tcr
  | el1Mair => Item.el1Mair
  | el1Vbar => Item.el1Vbar
  | el1Sctlr => Item.el1Sctlr
  | el1Mdscr => Item.el1Mdscr
  | hcr => Item.el2Hcr
  | idr => Item.el2Idr
  | tmr => Item.tmr
  | gic => Item.gic

/-- The list registers and active priorities that the interrupt controller has -/
abbrev GicData (host : Host) : Type :=
  ({i : Fin 16 // i.val < host.numLr} → Word) × ({i : Fin 4 // i.val < host.numApr} → BitVec 32) ×
    ({i : Fin 4 // i.val < host.numApr} → BitVec 32)

@[reducible] def Data (host : Host) : VmcbPart → Type
  | a32Spsr => BitVec 32 × BitVec 32 × BitVec 32 × BitVec 32
  | a32Dih => BitVec 32 × BitVec 32 × BitVec 32
  | el1Sp | el1Tcr | el1Vbar | el1Sctlr | el1Mdscr | hcr => Word
  | el1Idr | el1ElrSpsr | el1EsrFar | el1Afsr | el1Ttbr | el1Mair | idr => Word × Word
  | tmr => Tmr
  | gic => GicData host

variable (host : Host)

def ofGic (g : Gic) : GicData host := (fun i => g.lr i.1, fun i => g.ap0r i.1, fun i => g.ap1r i.1)

def field : (p : VmcbPart) → UtcbArch → p.Data host
  | a32Spsr, u => (u.a32.spsrAbt, u.a32.spsrFiq, u.a32.spsrIrq, u.a32.spsrUnd)
  | a32Dih, u => (u.a32.dacr, u.a32.ifsr, u.a32.hstr)
  | el1Sp, u => u.el1.sp
  | el1Idr, u => (u.el1.tpidr, u.el1.contextidr)
  | el1ElrSpsr, u => (u.el1.elr, u.el1.spsr)
  | el1EsrFar, u => (u.el1.esr, u.el1.far)
  | el1Afsr, u => (u.el1.afsr0, u.el1.afsr1)
  | el1Ttbr, u => (u.el1.ttbr0, u.el1.ttbr1)
  | el1Tcr, u => u.el1.tcr
  | el1Mair, u => (u.el1.mair, u.el1.amair)
  | el1Vbar, u => u.el1.vbar
  | el1Sctlr, u => u.el1.sctlr
  | el1Mdscr, u => u.el1.mdscr
  | hcr, u => u.hcr
  | idr, u => (u.vpidr, u.vmpidr)
  | tmr, u => u.tmr
  | gic, u => ofGic host u.gic

def view : (p : VmcbPart) → Vmcb → p.Data host
  | a32Spsr, v => (v.a32.spsrAbt, v.a32.spsrFiq, v.a32.spsrIrq, v.a32.spsrUnd)
  | a32Dih, v => (v.a32.dacr, v.a32.ifsr, v.a32.hstr)
  | el1Sp, v => v.el1.sp
  | el1Idr, v => (v.el1.tpidr, v.el1.contextidr)
  | el1ElrSpsr, v => (v.el1.elr, v.el1.spsr)
  | el1EsrFar, v => (v.el1.esr, v.el1.far)
  | el1Afsr, v => (v.el1.afsr0, v.el1.afsr1)
  | el1Ttbr, v => (v.el1.ttbr0, v.el1.ttbr1)
  | el1Tcr, v => v.el1.tcr
  | el1Mair, v => (v.el1.mair, v.el1.amair)
  | el1Vbar, v => v.el1.vbar
  | el1Sctlr, v => v.el1.sctlr
  | el1Mdscr, v => v.el1.mdscr
  | hcr, v => v.hcr
  | idr, v => (v.vpidr, v.vmpidr)
  | tmr, v => v.tmr
  | gic, v => ofGic host v.gic

/-- Saving -/
def put (res0 : Word) : (p : VmcbPart) → p.Data host → p.Data host
  | hcr => Hcr.constrain res0
  | gic => fun d => (fun i => if host.gicRegs then d.1 i else lrV2 (d.1 i), d.2)
  | _ => fun d => d

/-- Loading -/
def get : (p : VmcbPart) → p.Data host → p.Data host
  | gic => fun d => (fun i => if host.gicRegs then d.1 i else lrV3 (d.1 i), d.2)
  | _ => fun d => d

/-- What a VMM reads back for what it has written -/
def constrain (res0 : Word) : (p : VmcbPart) → p.Data host → p.Data host
  | hcr => Hcr.constrain res0
  | gic => fun d => (fun i => if host.gicRegs then d.1 i else d.1 i &&& definedV3, d.2)
  | _ => fun d => d

/-- … and what the registers have after they were loaded and saved -/
def settle (res0 : Word) : (p : VmcbPart) → p.Data host → p.Data host
  | hcr => Hcr.constrain res0
  | gic => fun d => (fun i => if host.gicRegs then d.1 i else d.1 i &&& definedV2, d.2)
  | _ => fun d => d

theorem lrV2_definedV3 (lr : Word) : lrV2 (lr &&& definedV3) = lrV2 lr := by
  unfold lrV2 definedV3
  simp only [BitVec.and_assoc]
  rfl

theorem hcr_again (res0 v : Word) : Hcr.constrain res0 (Hcr.constrain res0 v) = Hcr.constrain res0 v := by
  apply BitVec.eq_of_getLsbD_eq
  intro i small
  simp only [Hcr.constrain, BitVec.getLsbD_and, BitVec.getLsbD_or, BitVec.getLsbD_not, small, decide_true, Bool.true_and]
  cases v.getLsbD i <;> cases Hcr.hyp1.getLsbD i <;> cases Hcr.hyp0.getLsbD i <;> cases res0.getLsbD i <;> rfl

theorem get_put (res0 : Word) (p : VmcbPart) (d : p.Data host) : p.get host (p.put host res0 d) = p.constrain host res0 d := by
  cases p with
  | gic =>
      refine Prod.ext (funext fun i => ?_) rfl
      simp only [get, put, constrain]
      split
      · rfl
      · exact lrV3_lrV2 (d.1 i)
  | _ => rfl

theorem put_constrain (res0 : Word) (p : VmcbPart) (d : p.Data host) :
    p.put host res0 (p.constrain host res0 d) = p.put host res0 d := by
  cases p with
  | gic =>
      refine Prod.ext (funext fun i => ?_) rfl
      simp only [put, constrain]
      split
      · rfl
      · exact lrV2_definedV3 (d.1 i)
  | hcr => exact hcr_again res0 d
  | _ => rfl

def saves (res0 : Word) (u : UtcbArch) : List (BitVec 32 × (Vmcb → Vmcb)) :=
  frontItems u ++ (Item.el2Hcr, saveHcr u res0) :: backItems host u

theorem ofGic_save (u : UtcbArch) (v : Vmcb) : ofGic host (saveGic host u v.gic) = gic.put host 0#64 (ofGic host u.gic) := by
  refine Prod.ext (funext fun i => ?_) (Prod.ext (funext fun i => ?_) (funext fun i => ?_))
  · exact if_pos i.2
  · exact if_pos i.2
  · exact if_pos i.2

theorem ofGic_load (v : Vmcb) (g : Gic) : ofGic host (loadGic host v g) = gic.get host (ofGic host v.gic) := by
  refine Prod.ext (funext fun i => ?_) (Prod.ext (funext fun i => ?_) (funext fun i => ?_))
  · exact if_pos i.2
  · exact if_pos i.2
  · exact if_pos i.2

theorem save_own (res0 : Word) (p : VmcbPart) (u : UtcbArch) :
    Owns (saves host res0 u) (p.view host) p.mask (fun _ => True) (p.put host res0 (p.field host u)) := by
  simp only [Owns, saves, frontItems, backItems, List.cons_append, List.nil_append, List.forall_mem_cons]
  cases p
  all_goals
    refine ⟨?_, ?_, ?_, ?_, ?_, ?_, ?_, ?_, ?_, ?_, ?_, ?_, ?_, ?_, ?_, ?_, ?_, List.forall_mem_nil _⟩
  all_goals
    first
    | exact .inl ⟨rfl, fun _ _ => rfl⟩
    | exact .inr ⟨by decide, fun _ => rfl⟩
    | exact .inl ⟨rfl, fun v _ => ofGic_save host u v⟩

theorem load_own (e : ExcRegs) (p : VmcbPart) (v : Vmcb) :
    Owns (vmcbLoads host e v) (p.field host) p.mask (fun _ => True) (p.get host (p.view host v)) := by
  simp only [Owns, vmcbLoads, List.forall_mem_cons]
  cases p
  all_goals
    refine ⟨?_, ?_, ?_, ?_, ?_, ?_, ?_, ?_, ?_, ?_, ?_, ?_, ?_, ?_, ?_, ?_, ?_, ?_, List.forall_mem_nil _⟩
  all_goals
    first
    | exact .inl ⟨rfl, fun _ _ => rfl⟩
    | exact .inr ⟨by decide, fun _ => rfl⟩
    | exact .inl ⟨rfl, fun u _ => ofGic_load host v u.gic⟩

def exchange (res0 : Word) (e : ExcRegs) : Exchange 32 Vmcb UtcbArch VmcbPart Unit where
  Data := Data host
  State := Data host
  env := fun _ => ()
  saves := saves host res0
  loads := vmcbLoads host e
  mask := mask
  field := field host
  view := view host
  put := fun p _ => p.put host res0
  get := fun p _ => p.get host
  constrain := constrain host res0
  save_env := fun _ _ _ _ => rfl
  save_own := fun p u _ i member => (save_own host res0 p u i member).imp
    (fun own => ⟨own.1, fun v _ => own.2 v trivial⟩) fun keeps => keeps
  save_item := by
    intro p u
    cases p <;> simp [saves, frontItems, backItems, mask]
  load_own := load_own host e
  load_item := by
    intro p v
    cases p <;> simp [vmcbLoads, mask]
  get_put := fun p _ d => get_put host res0 p d
  put_constrain := fun p _ d => put_constrain host res0 p d

end VmcbPart

/-! ## What only goes one way -/

/-- What `save` leaves alone: the syndrome of the thread … -/
def ExcRegs.rest (e : ExcRegs) : Word × Word := (e.esr, e.far)

/-- … and of a virtual CPU HPFAR, ELRSR and VMCR, and the list registers that the interrupt controller does not have -/
def Vmcb.rest (host : Host) (v : Vmcb) : Word × BitVec 32 × BitVec 32 × ({i : Fin 16 // ¬ i.val < host.numLr} → Word) ×
    ({i : Fin 4 // ¬ i.val < host.numApr} → BitVec 32) × ({i : Fin 4 // ¬ i.val < host.numApr} → BitVec 32) :=
  (v.hpfar, v.gic.elrsr, v.gic.vmcr, fun i => v.gic.lr i.1, fun i => v.gic.ap0r i.1, fun i => v.gic.ap1r i.1)

/-- What `load` only reports, with the items that do so -/
inductive Report where
  | esrFar | hpfar | gic | selGst

namespace Report

def mask : Report → BitVec 32
  | esrFar => Item.el2EsrFar
  | hpfar => Item.el2Hpfar
  | gic => Item.gic
  | selGst => 0#32

@[reducible] def Data : Report → Type
  | esrFar => Word × Word
  | hpfar | selGst => Word
  | gic => BitVec 32 × BitVec 32

def field : (r : Report) → UtcbArch → r.Data
  | esrFar, u => (u.esr, u.far)
  | hpfar, u => u.hpfar
  | gic, u => (u.gic.elrsr, u.gic.vmcr)
  | selGst, u => u.selGst

end Report

/-! ## A message as a whole -/

variable {host : Host} {objects : Objects} {caps : Caps} {m : BitVec 32} {c : CpuRegs} {u : UtcbArch}

theorem saveExc_eq (vcpu : Bool) (e : ExcRegs) : saveExc u m vcpu e = transfer m (ExcPart.saves vcpu u) e := rfl

theorem save_poison (poison : m &&& Item.poison ≠ 0#32) : c.save host objects caps u m = (false, c) := if_pos poison

theorem assignSpaces_regs {d : CpuRegs} (assigned : c.assignSpaces objects caps u = some d) : d.exc = c.exc ∧ d.vmcb = c.vmcb := by
  unfold CpuRegs.assignSpaces at assigned
  dsimp only at assigned
  split at assigned
  · cases assigned
  · split at assigned
    · cases assigned
    · obtain rfl := Option.some.inj assigned
      exact ⟨rfl, rfl⟩

/-- `SPACES` and the check of the mode touch none of the items. -/
theorem save_regs (clean : m &&& Item.poison = 0#32) :
    (c.save host objects caps u m).2.exc = transfer m (ExcPart.saves c.vmcb.isSome u) c.exc ∧
      (c.save host objects caps u m).2.vmcb = c.vmcb.map (transfer m (VmcbPart.saves host c.res0Hcr u)) := by
  unfold CpuRegs.save
  rw [if_neg (not_not.mpr clean)]
  cases c.vmcb with
  | none => exact ⟨rfl, rfl⟩
  | some v =>
      dsimp only
      split
      · split
        · exact ⟨rfl, rfl⟩
        · rename_i d assigned
          exact assignSpaces_regs assigned
      · exact ⟨rfl, rfl⟩

/-- The items of a virtual CPU are in other fields of the UTCB than those of a thread. -/
theorem field_vmcbLoads (p : ExcPart) (e : ExcRegs) (v : Vmcb) : p.field (transfer m (vmcbLoads host e v) u) = p.field u := by
  refine transfer_keeps (P := fun w => p.field w = p.field u) ?_ rfl
  simp only [vmcbLoads, List.forall_mem_cons]
  cases p <;> exact ⟨fun _ same => same, fun _ same => same, fun _ same => same, fun _ same => same, fun _ same => same,
    fun _ same => same, fun _ same => same, fun _ same => same, fun _ same => same, fun _ same => same, fun _ same => same,
    fun _ same => same, fun _ same => same, fun _ same => same, fun _ same => same, fun _ same => same, fun _ same => same,
    fun _ same => same, nofun⟩

theorem load_exc (p : ExcPart) : p.field (u.load host c m) = p.field (transfer m (excLoads c.exc) u) := by
  unfold UtcbArch.load
  cases c.vmcb with
  | none => rfl
  | some v => exact field_vmcbLoads p c.exc v

/-- What holds of all items of a thread -/
theorem exc_rest (vcpu : Bool) (e : ExcRegs) : (transfer m (ExcPart.saves vcpu u) e).rest = e.rest := by
  refine transfer_keeps (P := fun d : ExcRegs => d.rest = e.rest) ?_ rfl
  simp only [ExcPart.saves, excItems, List.cons_append, List.nil_append, List.forall_mem_cons]
  exact ⟨fun _ same => same, fun _ same => same, fun _ same => same, fun _ same => same, nofun⟩

/-- `load` and `save` with the mask `m`, for the registers that a thread has as well -/
structure ExcTransfer (host : Host) (objects : Objects) (caps : Caps) (m : BitVec 32) (c : CpuRegs) (u : UtcbArch) : Prop where
  load_save : m &&& Item.poison = 0#32 → ∀ p : ExcPart, p.view (c.save host objects caps (u.load host c m) m).2.exc =
    if m &&& p.mask ≠ 0#32 then p.constrain c.vmcb.isSome (p.view c.exc) else p.view c.exc
  save_load : m &&& Item.poison = 0#32 → ∀ p : ExcPart, m &&& p.mask ≠ 0#32 → ∀ w : UtcbArch,
    p.field (w.load host (c.save host objects caps u m).2 m) = p.constrain c.vmcb.isSome (p.field u)
  unselected : ∀ p : ExcPart, m &&& p.mask = 0#32 →
    p.view (c.save host objects caps u m).2.exc = p.view c.exc ∧ p.field (u.load host c m) = p.field u
  rest : (c.save host objects caps u m).2.exc.rest = c.exc.rest
  flags : c.vmcb = none → m &&& Item.poison = 0#32 → m &&& Item.el2ElrSpsr ≠ 0#32 →
    (c.save host objects caps u m).2.exc.spsr = u.spsr &&& nzcv

theorem exc_load_save (clean : m &&& Item.poison = 0#32) (p : ExcPart) :
    p.view (c.save host objects caps (u.load host c m) m).2.exc =
      if m &&& p.mask ≠ 0#32 then p.constrain c.vmcb.isSome (p.view c.exc) else p.view c.exc := by
  rw [(save_regs clean).1]
  split
  · rename_i on
    have saved : p.view (transfer m (ExcPart.saves c.vmcb.isSome (u.load host c m)) c.exc) =
      p.constrain c.vmcb.isSome (p.field (u.load host c m)) := (ExcPart.exchange c.vmcb.isSome).view_save on
    have loaded : p.field (transfer m (excLoads c.exc) u) = p.view c.exc := (ExcPart.exchange c.vmcb.isSome).field_load on
    rw [saved, load_exc, loaded]
  · rename_i off
    exact (ExcPart.exchange c.vmcb.isSome).view_unselected (not_not.mp off)

theorem exc_save_load (clean : m &&& Item.poison = 0#32) (p : ExcPart) (on : m &&& p.mask ≠ 0#32) (w : UtcbArch) :
    p.field (w.load host (c.save host objects caps u m).2 m) = p.constrain c.vmcb.isSome (p.field u) := by
  rw [load_exc, (save_regs clean).1]
  exact (ExcPart.exchange c.vmcb.isSome).save_load on w

theorem excTransfer : ExcTransfer host objects caps m c u where
  load_save := exc_load_save
  save_load := exc_save_load
  unselected p off := by
    refine ⟨?_, (load_exc p).trans ((ExcPart.exchange true).field_unselected off)⟩
    by_cases clean : m &&& Item.poison = 0#32
    · rw [(save_regs clean).1]
      exact (ExcPart.exchange c.vmcb.isSome).view_unselected off
    · rw [save_poison clean]
  rest := by
    by_cases clean : m &&& Item.poison = 0#32
    · rw [(save_regs clean).1, exc_rest]
    · rw [save_poison clean]
  flags thread clean on := by
    rw [(save_regs clean).1, thread, ← saveExc_eq, Option.isSome_none, saveExc_spsr, if_pos on, if_neg Bool.false_ne_true]

def noObjects : Objects := ⟨fun _ => .pd, fun _ => .gst, fun _ => 0#64, fun _ => 0#64⟩

end Nova.Kernel.Arm
