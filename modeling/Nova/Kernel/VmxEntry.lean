/-
# Nova.Kernel.VmxEntry — the configuration in which a virtual CPU enters its guest (VMX)

A virtual CPU is created without spaces and `ILLEGAL`.  `assign_spaces` gives it three
spaces and makes it legal, and `save_vmx` derives four fields of the VMCS from these; a
reply that fails makes it `ILLEGAL` again.  Nova.Kernel.Entry has the way from there to the
VM entry.

`vmx_entry`: whatever the VMM replies, and whenever it does, a virtual CPU enters its guest
only with three spaces of its own PD for which the VMM had capabilities, with the VMCS
derived from them; and once a reply has failed it does not enter its guest again.
-/
import Nova.Kernel.Entry
import Nova.Kernel.Vmcs

namespace Nova.Kernel.Vmx

open Nova.Theory.Runs
open Nova.Theory.Words
open Nova.Kernel.Contexts

set_option autoImplicit false

/-- What `sys_ipc_reply` gets: the message transfer descriptor and the UTCB, with the capabilities that the
object space of the replying EC holds at that time -/
structure VmmReply where
  mtd : BitVec 32
  utcb : UtcbArch
  caps : Caps

namespace CpuRegs

/-- `save_exc`, as far as these registers have what it changes -/
def saveExc (u : UtcbArch) (m : BitVec 32) (c : CpuRegs) : Bool × CpuRegs :=
  if m &&& Item.poison ≠ 0#32 then (false, c)
  else
    let c := if m &&& Item.gpr0To7 ≠ 0#32 then
        { c with sys := { c.sys with
          rax := u.sys.rax, rcx := u.sys.rcx, rdx := u.sys.rdx, rbx := u.sys.rbx
          rbp := u.sys.rbp, rsi := u.sys.rsi, rdi := u.sys.rdi } }
      else c
    (true, if m &&& Item.gpr8To15 ≠ 0#32 then c.saveGpr8To15 u else c)

/-- `state_save`.  On a CPU with VMX no EC leaves guest mode with `vmexitSvm`. -/
def stateSave (host : Host) (objects : Objects) (x : Msg) (p : VmmReply) (c : CpuRegs) : Bool × CpuRegs :=
  match x with
  | .vmexitVmx => c.saveVmx host p.utcb objects p.caps p.mtd
  | .exception => c.saveExc p.utcb p.mtd
  | .vmexitSvm => (true, c)

/-- The hazards that matter on the return path -/
def stops : BitVec 32 := Hazard.illegal ||| Hazard.recalled

/-- Everything about the registers may become as in `d`, but for the two hazards, the pointers to the spaces
and what depends on them in the VMCS: no other function of the kernel touches these, and no guest can. -/
def drift (d c : CpuRegs) : CpuRegs :=
  { d with
    obj := c.obj, gst := c.gst, pio := c.pio, msr := c.msr
    hazard := (d.hazard &&& ~~~ stops) ||| (c.hazard &&& stops)
    vmcs := fun field =>
      match field with
      | .eptp | .bitmapIoA | .bitmapIoB | .bitmapMsr => c.vmcs field
      | _ => d.vmcs field }

theorem saveExc_seat (u : UtcbArch) (m : BitVec 32) (c : CpuRegs) : (c.saveExc u m).2.seat = c.seat := by
  unfold saveExc
  split
  · rfl
  · dsimp only
    split <;> split <;> rfl

theorem drift_has (d c : CpuRegs) {i : Nat} (small : i < 32) (inside : stops.getLsbD i = true) :
    Hazard.has (drift d c).hazard (1#32 <<< i) = Hazard.has c.hazard (1#32 <<< i) := by
  rw [Hazard.has_bit _ small, Hazard.has_bit _ small]
  change ((d.hazard &&& ~~~ stops) ||| (c.hazard &&& stops)).getLsbD i = _
  rw [BitVec.getLsbD_or, BitVec.getLsbD_and, BitVec.getLsbD_and, BitVec.getLsbD_not, inside]
  simp

theorem saveExc_hazard (u : UtcbArch) (m : BitVec 32) (c : CpuRegs) : (c.saveExc u m).2.hazard = c.hazard :=
  congrArg (fun seat => seat.2.2.2.2.1) (saveExc_seat u m c)

theorem saveVmx_recall (host : Host) (u : UtcbArch) (objects : Objects) (caps : Caps) (m : BitVec 32) (c : CpuRegs) :
    Hazard.has (c.saveVmx host u objects caps m).2.hazard Hazard.recalled = Hazard.has c.hazard Hazard.recalled := by
  rcases @saveVmx_cases host u c m objects caps with is | is | is | ⟨d, assigned, is⟩
  · rw [is]
  · rw [is, saveItems_hazard]
  · rw [is, saveItems_hazard]
  · rw [is]
    obtain ⟨-, rfl⟩ := assignSpaces_eq_some.mp assigned
    change Hazard.has ((c.saveItems host u m).hazard &&& ~~~ Hazard.illegal) Hazard.recalled = _
    rw [Hazard.has_recall_not_illegal, saveItems_hazard]

end CpuRegs

/-- The registers of the ECs of a machine with VMX -/
def arch (host : Host) (objects : Objects) : Contexts.Arch CpuRegs VmmReply CpuRegs where
  illegal c := Hazard.has c.hazard Hazard.illegal
  recalled c := Hazard.has c.hazard Hazard.recalled
  setIllegal := CpuRegs.hazardSet Hazard.illegal
  setRecall := CpuRegs.hazardSet Hazard.recalled
  clrRecall := CpuRegs.hazardClr Hazard.recalled
  prepare := id
  save := CpuRegs.stateSave host objects
  drift := CpuRegs.drift
  illegal_setIllegal c := Hazard.has_illegal_or c.hazard
  illegal_setRecall c := Hazard.has_illegal_recall c.hazard
  illegal_clrRecall c := Hazard.has_illegal_not_recall c.hazard
  illegal_prepare _ := rfl
  illegal_drift d c := CpuRegs.drift_has d c (by decide) (by decide)
  recall_setRecall c := Hazard.has_recall_or c.hazard
  recall_clrRecall c := Hazard.has_recall_not c.hazard
  recall_setIllegal c := Hazard.has_recall_illegal c.hazard
  recall_prepare _ := rfl
  recall_save x p c := by
    cases x with
    | vmexitVmx => exact CpuRegs.saveVmx_recall ..
    | exception =>
        change Hazard.has (c.saveExc p.utcb p.mtd).2.hazard Hazard.recalled = _
        rw [CpuRegs.saveExc_hazard]
    | vmexitSvm => rfl
  recall_drift d c := CpuRegs.drift_has d c (by decide) (by decide)

/-! ## Legal configurations -/

/-- The capabilities that a reply names are good for a virtual CPU of the PD. -/
structure Assignable (objects : Objects) (own : Word) (p : VmmReply) : Prop where
  gst : CpuRegs.Assigns objects own ObjSubtype.gst (p.caps.lookup p.utcb.selGst)
  pio : CpuRegs.Assigns objects own ObjSubtype.pio (p.caps.lookup p.utcb.selPio)
  msr : CpuRegs.Assigns objects own ObjSubtype.msr (p.caps.lookup p.utcb.selMsr)

/-- The spaces of the virtual CPU are those that one of the accepted replies named. -/
structure Named (objects : Objects) (p : VmmReply) (c : CpuRegs) : Prop where
  requested : p.mtd &&& Item.spaces ≠ 0#32
  assignable : Assignable objects (objects.pd c.obj) p
  gst : c.gst = (p.caps.lookup p.utcb.selGst).obj
  pio : c.pio = (p.caps.lookup p.utcb.selPio).obj
  msr : c.msr = (p.caps.lookup p.utcb.selMsr).obj

/-- A space of the PD -/
structure Own (objects : Objects) (own space : Word) (s : ObjSubtype) : Prop where
  nonnull : space ≠ 0#64
  subtype : objects.subtype space = s
  pd : objects.pd space = own

/-- The spaces, and the fields of the VMCS that are derived from them -/
structure Configured (objects : Objects) (accepted : List (Msg × VmmReply)) (c : CpuRegs) : Prop where
  named : ∃ p, (.vmexitVmx, p) ∈ accepted ∧ Named objects p c
  gst : Own objects (objects.pd c.obj) c.gst ObjSubtype.gst
  pio : Own objects (objects.pd c.obj) c.pio ObjSubtype.pio
  msr : Own objects (objects.pd c.obj) c.msr ObjSubtype.msr
  eptp : c.vmcs .eptp = objects.phys c.gst ||| CpuRegs.eptpAttr
  ioA : c.vmcs .bitmapIoA = objects.phys c.pio
  ioB : c.vmcs .bitmapIoB = objects.phys c.pio + CpuRegs.pageSize
  bitmapMsr : c.vmcs .bitmapMsr = objects.phys c.msr

theorem own_of_assigns {objects : Objects} {own : Word} {s : ObjSubtype} {cap : Capability}
    (assigns : CpuRegs.Assigns objects own s cap) : Own objects own cap.obj s := by
  have valid := assigns.valid
  unfold Capability.validateSp at valid
  simp only [Bool.and_eq_true, decide_eq_true_eq] at valid
  exact ⟨valid.1.1.1, valid.1.2, assigns.pd⟩

/-- A configuration is what `seat` says. -/
theorem Configured.congr {objects : Objects} {accepted accepted' : List (Msg × VmmReply)} {c d : CpuRegs}
    (configured : Configured objects accepted c) (more : accepted ⊆ accepted') (obj : d.obj = c.obj) (gst : d.gst = c.gst)
    (pio : d.pio = c.pio) (msr : d.msr = c.msr) (eptp : d.vmcs .eptp = c.vmcs .eptp)
    (ioA : d.vmcs .bitmapIoA = c.vmcs .bitmapIoA) (ioB : d.vmcs .bitmapIoB = c.vmcs .bitmapIoB)
    (bitmap : d.vmcs .bitmapMsr = c.vmcs .bitmapMsr) : Configured objects accepted' d := by
  obtain ⟨⟨p, member, named⟩, ownGst, ownPio, ownMsr, hasEptp, hasA, hasB, hasMsr⟩ := configured
  rw [← obj] at ownGst ownPio ownMsr
  have assignable := named.assignable
  rw [← obj] at assignable
  refine ⟨⟨p, more member, named.requested, assignable, gst.trans named.gst, pio.trans named.pio, msr.trans named.msr⟩,
    ?_, ?_, ?_, ?_, ?_, ?_, ?_⟩
  · rw [gst]
    exact ownGst
  · rw [pio]
    exact ownPio
  · rw [msr]
    exact ownMsr
  · rw [eptp, gst, hasEptp]
  · rw [ioA, pio, hasA]
  · rw [ioB, pio, hasB]
  · rw [bitmap, msr, hasMsr]

theorem Configured.of_seat {objects : Objects} {accepted accepted' : List (Msg × VmmReply)} {c d : CpuRegs}
    (configured : Configured objects accepted c) (more : accepted ⊆ accepted') (same : d.seat = c.seat) :
    Configured objects accepted' d := by
  simp only [CpuRegs.seat, Prod.mk.injEq] at same
  obtain ⟨obj, gst, pio, msr, -, eptp, ioA, ioB, bitmap⟩ := same
  exact configured.congr more obj gst pio msr eptp ioA ioB bitmap

theorem hazard_of_seat {c d : CpuRegs} (same : d.seat = c.seat) : d.hazard = c.hazard :=
  congrArg (fun seat => seat.2.2.2.2.1) same

/-- The object space of a virtual CPU and the spaces it has been assigned -/
def spaces (c : CpuRegs) : Word × Word × Word × Word := (c.obj, c.gst, c.pio, c.msr)

theorem spaces_write (c : CpuRegs) (field : Encoding) (v : Word) : spaces (c.write field v) = spaces c := rfl

theorem writeSpaces_spaces (objects : Objects) (c : CpuRegs) : spaces (c.writeSpaces objects) = spaces c := by
  simp only [CpuRegs.writeSpaces, spaces_write]

theorem write_vmcs (c : CpuRegs) (field : Encoding) (v : Word) : (c.write field v).vmcs field = v := Function.update_self ..

theorem write_vmcs_of_ne (c : CpuRegs) {field other : Encoding} (v : Word) (ne : other ≠ field) :
    (c.write field v).vmcs other = c.vmcs other := Function.update_of_ne ne ..

theorem writeSpaces_vmcs (objects : Objects) (c : CpuRegs) :
    (c.writeSpaces objects).vmcs .eptp = objects.phys c.gst ||| CpuRegs.eptpAttr ∧
    (c.writeSpaces objects).vmcs .bitmapIoA = objects.phys c.pio ∧
    (c.writeSpaces objects).vmcs .bitmapIoB = objects.phys c.pio + CpuRegs.pageSize ∧
    (c.writeSpaces objects).vmcs .bitmapMsr = objects.phys c.msr := by
  unfold CpuRegs.writeSpaces
  refine ⟨?_, ?_, ?_, ?_⟩
  all_goals simp (disch := decide) only [write_vmcs, write_vmcs_of_ne]

/-- After `assign_spaces` and what `save_vmx` writes then -/
theorem configured_writeSpaces {objects : Objects} {accepted : List (Msg × VmmReply)} {c d : CpuRegs} {p : VmmReply}
    (requested : p.mtd &&& Item.spaces ≠ 0#32) (assigned : c.assignSpaces p.utcb objects p.caps = some d) :
    Configured objects ((.vmexitVmx, p) :: accepted) (d.writeSpaces objects) := by
  obtain ⟨⟨gst, pio, msr⟩, is⟩ := CpuRegs.assignSpaces_eq_some.mp assigned
  have obj : d.obj = c.obj := by rw [is]; rfl
  have isGst : d.gst = (p.caps.lookup p.utcb.selGst).obj := by rw [is]; rfl
  have isPio : d.pio = (p.caps.lookup p.utcb.selPio).obj := by rw [is]; rfl
  have isMsr : d.msr = (p.caps.lookup p.utcb.selMsr).obj := by rw [is]; rfl
  clear is assigned
  rw [← obj] at gst pio msr
  have same := writeSpaces_spaces objects d
  simp only [spaces, Prod.mk.injEq] at same
  obtain ⟨obj', gst', pio', msr'⟩ := same
  obtain ⟨eptp, ioA, ioB, bitmap⟩ := writeSpaces_vmcs objects d
  generalize d.writeSpaces objects = d' at obj' gst' pio' msr' eptp ioA ioB bitmap
  rw [← obj'] at gst pio msr
  refine ⟨⟨p, List.mem_cons_self, requested, ⟨gst, pio, msr⟩, gst'.trans isGst, pio'.trans isPio, msr'.trans isMsr⟩,
    ?_, ?_, ?_, by rw [eptp, gst'], by rw [ioA, pio'], by rw [ioB, pio'], by rw [bitmap, msr']⟩
  · rw [gst', isGst]
    exact own_of_assigns gst
  · rw [pio', isPio]
    exact own_of_assigns pio
  · rw [msr', isMsr]
    exact own_of_assigns msr

/-- What holds of the registers of a virtual CPU in every state -/
def Settled (objects : Objects) {n k : Nat} (cfg : Config n k) (e : Fin n) (_ : Bool) (accepted : List (Msg × VmmReply))
    (c : CpuRegs) : Prop :=
  cfg.vcpu e = true → Hazard.has c.hazard Hazard.illegal = false → Configured objects accepted c

theorem lawful_settled {n k : Nat} (host : Host) (objects : Objects) (cfg : Config n k) :
    System.Lawful (arch host objects) (fun _ _ _ _ => True) (Settled objects cfg) where
  setRecall := fun {e first l r} settled vcpu legal => by
    change Hazard.has (r.hazard ||| Hazard.recalled) Hazard.illegal = false at legal
    rw [Hazard.has_illegal_recall] at legal
    exact (settled vcpu legal).congr (List.Subset.refl _) rfl rfl rfl rfl rfl rfl rfl rfl
  clrRecall := fun {e first l r} settled vcpu legal => by
    change Hazard.has (r.hazard &&& ~~~ Hazard.recalled) Hazard.illegal = false at legal
    rw [Hazard.has_illegal_not_recall] at legal
    exact (settled vcpu legal).congr (List.Subset.refl _) rfl rfl rfl rfl rfl rfl rfl rfl
  drift := fun {e first l r} d settled vcpu legal => by
    have same : Hazard.has (CpuRegs.drift d r).hazard Hazard.illegal = Hazard.has r.hazard Hazard.illegal :=
      CpuRegs.drift_has d r (by decide) (by decide)
    exact (settled vcpu (same.symm.trans legal)).congr (List.Subset.refl _) rfl rfl rfl rfl rfl rfl rfl rfl
  prepare := fun settled => settled
  accept := fun {e l r r'} x p settled _ saved vcpu legal => by
    cases x with
    | exception =>
        have same : r'.seat = r.seat := by
          rw [← CpuRegs.saveExc_seat p.utcb p.mtd r, show r.saveExc p.utcb p.mtd = (true, r') from saved]
        rw [hazard_of_seat same] at legal
        exact (settled vcpu legal).of_seat (List.subset_cons_self _ _) same
    | vmexitSvm =>
        obtain ⟨-, rfl⟩ := Prod.mk.inj (show (true, r) = (true, r') from saved)
        exact (settled vcpu legal).of_seat (List.subset_cons_self _ _) rfl
    | vmexitVmx =>
        change r.saveVmx host p.utcb objects p.caps p.mtd = (true, r') at saved
        unfold CpuRegs.saveVmx at saved
        split at saved
        · cases saved
        · dsimp only at saved
          split at saved
          · rename_i requested
            cases assigned : (r.saveItems host p.utcb p.mtd).assignSpaces p.utcb objects p.caps with
            | none =>
                rw [assigned] at saved
                cases saved
            | some d =>
                rw [assigned] at saved
                obtain ⟨-, rfl⟩ := Prod.mk.inj saved
                exact configured_writeSpaces requested assigned
          · obtain ⟨-, rfl⟩ := Prod.mk.inj saved
            have same : (r.saveItems host p.utcb p.mtd).seat = r.seat := CpuRegs.saveItems_seat
            rw [hazard_of_seat same] at legal
            exact (settled vcpu legal).of_seat (List.subset_cons_self _ _) same
  refuse := fun {e l r r'} x p settled saved vcpu legal => by
    change Hazard.has (r'.hazard ||| Hazard.illegal) Hazard.illegal = false at legal
    rw [Hazard.has_illegal_or] at legal
    cases legal

/-- A reply that is poisoned or names no good spaces -/
def Bad (objects : Objects) (p : VmmReply) (c : CpuRegs) : Prop :=
  p.mtd &&& Item.poison ≠ 0#32 ∨ p.mtd &&& Item.spaces ≠ 0#32 ∧ ¬ Assignable objects (objects.pd c.obj) p

/-- `save_vmx` refuses such a reply and leaves the spaces alone. -/
theorem saveVmx_bad {host : Host} {objects : Objects} {p : VmmReply} {c : CpuRegs} (bad : Bad objects p c) :
    ∃ d, c.saveVmx host p.utcb objects p.caps p.mtd = (false, d) ∧ d.seat = c.seat := by
  unfold CpuRegs.saveVmx
  split
  · exact ⟨c, rfl, rfl⟩
  · rename_i clean
    dsimp only
    obtain ⟨requested, unfit⟩ := bad.resolve_left clean
    rw [if_pos requested]
    have same : (c.saveItems host p.utcb p.mtd).seat = c.seat := CpuRegs.saveItems_seat
    cases assigned : (c.saveItems host p.utcb p.mtd).assignSpaces p.utcb objects p.caps with
    | none => exact ⟨_, rfl, same⟩
    | some d =>
        obtain ⟨⟨gst, pio, msr⟩, -⟩ := CpuRegs.assignSpaces_eq_some.mp assigned
        have obj : (c.saveItems host p.utcb p.mtd).obj = c.obj := congrArg Prod.fst same
        rw [obj] at gst pio msr
        exact absurd ⟨gst, pio, msr⟩ unfit

/-- The virtual CPUs are new, the other ECs may have any registers. -/
def boot {n k : Nat} (cfg : Config n k) (host : Host) (obj : Fin n → Word) (stale : Fin n → Encoding → Word)
    (threads : Fin n → CpuRegs) (e : Fin n) : CpuRegs :=
  if cfg.vcpu e then CpuRegs.create host (obj e) (stale e) else threads e

theorem create_illegal (host : Host) (obj : Word) (stale : Encoding → Word) :
    Hazard.has (CpuRegs.create host obj stale).hazard Hazard.illegal = true := by
  change Hazard.has Hazard.illegal Hazard.illegal = true
  decide

/-- **A virtual CPU enters its guest only in a legal configuration**: in guest mode it has three spaces of its own
PD that an accepted reply named with capabilities for `ASSIGN`, and the VMCS is derived from them.  A reply that is
poisoned or whose assignment fails leaves the spaces alone, and in no later state is the virtual CPU in guest mode:
it is on its return path, where it is diverted and killed, whatever preempts or recalls it. -/
theorem vmx_entry {n k : Nat} (cfg : Config n k) (host : Host) (objects : Objects) (root : Option (Fin n))
    (count : Nat → Nat) (obj : Fin n → Word) (stale : Fin n → Encoding → Word) (threads : Fin n → CpuRegs)
    (inputs : List (Fin k × Input n VmmReply CpuRegs)) :
    ∃ s, runs (fun i s => s.step cfg .vmexitVmx (arch host objects) i.1 i.2)
        (System.start cfg .vmexitVmx root count (boot cfg host obj stale threads)) inputs = some s ∧
      (∀ c, (s.machine.cpu c).pc = .user → cfg.vcpu (s.machine.self c) = true →
        Configured objects (s.accepted (s.machine.self c)) (s.regs (s.machine.self c))) ∧
      ∀ c a p, s.addressee cfg c = some (a, .vmexitVmx) → Bad objects p (s.regs a) →
        ∃ s', s.step cfg .vmexitVmx (arch host objects) c (.reply p) = some s' ∧
          (s'.regs a).gst = (s.regs a).gst ∧ (s'.regs a).pio = (s.regs a).pio ∧ (s'.regs a).msr = (s.regs a).msr ∧
          ∀ later : List (Fin k × Input n VmmReply CpuRegs),
            ∃ s'', runs (fun i s => s.step cfg .vmexitVmx (arch host objects) i.1 i.2) s' later = some s'' ∧
              System.Perishes cfg .vmexitVmx (arch host objects) a s'' := by
  have start : System.Guarded cfg (arch host objects) count (Settled objects cfg)
      (System.start cfg .vmexitVmx root count (boot cfg host obj stale threads)) := by
    refine System.guarded_start root .vmexitVmx _ fun e vcpu legal => ?_
    unfold boot at legal
    rw [if_pos vcpu, create_illegal] at legal
    cases legal
  obtain ⟨s, reached, guarded⟩ := System.runs_guarded (lawful_settled host objects cfg) .vmexitVmx start inputs
    (Legal.of_forall System.obeys_true inputs _)
  refine ⟨s, reached, fun c user vcpu => ?_, fun c a p is bad => ?_⟩
  · exact guarded.regs _ vcpu (guarded.user c user)
  · obtain ⟨d, refused, same⟩ := saveVmx_bad bad
    obtain ⟨s', done, regs, later⟩ := System.reply_perishes guarded.plain is
      (show (arch host objects).save .vmexitVmx p (s.regs a) = (false, d) from refused) .vmexitVmx
    simp only [CpuRegs.seat, Prod.mk.injEq] at same
    obtain ⟨-, gst, pio, msr, -⟩ := same
    refine ⟨s', done, ?_, ?_, ?_, later⟩
    · rw [regs]
      exact gst
    · rw [regs]
      exact pio
    · rw [regs]
      exact msr

/-- Spaces at the addresses 0x2000 to 0x4000, of the PD of the virtual CPU -/
def threeSpaces : Objects where
  type := fun _ => .pd
  subtype := fun o => if o = 0x2000#64 then .gst else if o = 0x3000#64 then .pio else .msr
  pd := fun _ => 0x5000#64
  phys := fun o => o

/-- The VMM has capabilities for them and assigns them. -/
def assigning : VmmReply where
  mtd := Item.spaces
  utcb := { (default : UtcbArch) with selGst := 1#64, selPio := 2#64, selMsr := 3#64 }
  caps := fun k =>
    if k.val = 1 then .ofObject 0x2000#64 Perm.spAssign
    else if k.val = 2 then .ofObject 0x3000#64 Perm.spAssign
    else if k.val = 3 then .ofObject 0x4000#64 Perm.spAssign
    else .null

def plainHost : Host :=
  { cpuPriSet := 0#32, cpuPriClr := 0#32, cpuSecSet := 0#32, cpuSecClr := 0#32, cpuTerSet := 0#64, cpuTerClr := 0#64
    fixCr0Set := 0x20#64, fixCr0Clr := 0x60000000#64, fixCr4Set := 0x2000#64, fixCr4Clr := 0#64, xcr := 7#64, xss := 0#64 }

/-- With such a reply the virtual CPU does enter its guest. -/
example : (runs (fun i s => s.step System.oneGuest .vmexitVmx (arch plainHost threeSpaces) i.1 i.2)
    (System.start System.oneGuest .vmexitVmx none (fun _ => 0) (boot System.oneGuest plainHost (fun _ => 0x1000#64)
      (fun _ _ => 0#64) fun _ => (CpuRegs.create plainHost 0#64 fun _ => 0#64).hazardClr Hazard.illegal))
    (System.enterGuest assigning)).map (fun s => ((s.machine.cpu 0).pc, s.machine.self 0)) = some (.user, 1) := by
  decide +kernel

end Nova.Kernel.Vmx
