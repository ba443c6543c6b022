/-
# Nova.Kernel.Downcast — hypercalls cast pointers to what they are

`validate` compares the type of an object, and for PDs and spaces also the subtype,
before a hypercall casts the pointer.  `handle_good` goes through the hypercalls: what
they read is an object, what they cast has the class that they cast it to, and what
they assert holds.  `downcast_safe` is the result for every run from a booted system.

`validate_take_grant` reads two objects without a check for null: the permissions that
it checks first are never those of the null capability.
-/
import Nova.Kernel.Authority

namespace Nova.Kernel.Syscall

open Nova.Theory.Words
open Nova.Theory.Runs

set_option autoImplicit false

/-- An access that is what it should be -/
def Access.Good (s : System) : Access → Prop
  | .read o => o ≠ 0#64 ∧ (s.object o).isSome
  | .cast o c => o ≠ 0#64 ∧ ∃ k, s.object o = some k ∧ k.cls = c
  | .assertion holds => holds = true

namespace System

section Good

variable {s : System} (inv : s.Inv)
include inv

theorem good_read {o : Word} {k : Kobject} (object : s.object o = some k) : Access.Good s (.read o) :=
  ⟨(inv.real o k object).1, by rw [object]; rfl⟩

theorem good_cast {o : Word} {k : Kobject} (object : s.object o = some k) : Access.Good s (.cast o k.cls) :=
  ⟨(inv.real o k object).1, k, object, rfl⟩

/-- What `validate` reads -/
theorem look_good {c : Capability} (held : s.Held c) : ∀ a ∈ look c, Access.Good s a := by
  unfold look
  split
  · exact fun a none_ => nomatch none_
  · rename_i some_
    obtain ⟨k, -, object, -⟩ := held.object some_
    exact List.forall_mem_singleton.mpr (good_read inv object)

/-- A portal is called: it belongs to a local thread. -/
theorem call_good {e : Word} {c : Capability} {p : Perm} (held : s.Held c) :
    ∀ a ∈ (s.call e c p).1, Access.Good s a := by
  unfold call
  split
  · rename_i valid
    obtain ⟨ec, object⟩ := held.pt valid
    obtain ⟨space, evt, cpu, q, thread, -⟩ := inv.portal _ ec object
    have is : s.ecOf c.obj = ec := by rw [ecOf, object]
    have subtype : (s.kobject ec).2 = ObjSubtype.ecLocal := by rw [kobject, thread]; rfl
    dsimp only
    rw [is]
    split
    · refine List.forall_mem_append.mpr ⟨look_good inv held, ?_⟩
      exact List.forall_mem_cons.mpr ⟨good_cast inv object, List.forall_mem_singleton.mpr (good_read inv thread)⟩
    · refine List.forall_mem_append.mpr ⟨look_good inv held, ?_⟩
      refine List.forall_mem_cons.mpr ⟨good_cast inv object, List.forall_mem_cons.mpr ⟨good_read inv thread, ?_⟩⟩
      exact List.forall_mem_singleton.mpr (decide_eq_true subtype)
  · exact look_good inv held

/-- The casts of `sys_ctrl_pd` -/
theorem ctrlPd_good {o o' : Word} {k k' : Kobject} (object : s.object o = some k) (object' : s.object o' = some k')
    (type : k.type = .pd) (type' : k'.type = .pd) (r : SysCtrlPd) :
    ∀ a ∈ (ctrlPd o o' k.subtype k'.subtype r).1, Access.Good s a := by
  have pair : ∀ j j' : SpaceKind, k.subtype = j.subtype → k'.subtype = j'.subtype →
      ∀ a ∈ [Access.cast o' (.space j'), Access.cast o (.space j)], Access.Good s a := by
    intro j j' is is'
    obtain rfl := space_of_subtype type is
    obtain rfl := space_of_subtype type' is'
    exact List.forall_mem_cons.mpr ⟨good_cast inv object', List.forall_mem_singleton.mpr (good_cast inv object)⟩
  have nothing : ∀ a ∈ ([] : List Access), Access.Good s a := fun a none_ => nomatch none_
  unfold ctrlPd
  split
  · rename_i is
    split
    · rename_i is'
      exact pair .hst .hst is is'
    · split
      · rename_i is'
        exact pair .hst .gst is is'
      · split
        · rename_i is'
          exact pair .hst .dma is is'
        · exact nothing
  · split
    · rename_i both
      exact pair .obj .obj both.1 (both.2.trans both.1)
    · split
      · rename_i both
        exact pair .pio .pio both.1 (both.2.trans both.1)
      · split
        · rename_i both
          exact pair .msr .msr both.1 (both.2.trans both.1)
        · exact nothing

omit inv in
/-- A capability with a permission names an object. -/
theorem some_of_prm {c : Capability} (held : s.Held c) {p : Perm} (any : c.prm &&& p ≠ 0#32) :
    ∃ k, s.object c.obj = some k ∧ s.kobject c.obj = (k.type, k.subtype) := by
  rcases held with rfl | ⟨k, q, object, -⟩
  · exact absurd (by rw [Capability.prm_null]; exact BitVec.zero_and) any
  · exact ⟨k, object, by rw [kobject, object]⟩

/-- A semaphore that an interrupt can be assigned with has an interrupt. -/
theorem assignable {o : Word} {id : BitVec 32} {q : Perm} (object : s.object o = some (.sm id))
    (granted : s.granted o = some q) (le : Perm.smAssign.Le q) : id ≠ noId := by
  rintro rfl
  obtain ⟨k, object', -, -, bound⟩ := inv.granted o q granted
  obtain rfl := Option.some.inj (object.symm.trans object')
  exact absurd (le.trans bound) (by decide)

/-- A capability is validated before its pointer is used. -/
theorem checked {c : Capability} (held : s.Held c) {valid : Bool} {accesses : List Access} {next next' : Next}
    (good : valid = true → ∀ a ∈ accesses, Access.Good s a) :
    ∀ a ∈ (if valid = true then (look c ++ accesses, next) else (look c, next')).1, Access.Good s a := by
  split
  · rename_i is
    exact List.forall_mem_append.mpr ⟨look_good inv held, good is⟩
  · exact look_good inv held

/-- `sys_create_sc` and `sys_create_pt`: a PD and an EC, whose subtype is then read -/
theorem bind_good {cpd cec : Capability} (heldPd : s.Held cpd) (heldEc : s.Held cec) {p : Perm} {valid : Bool}
    {test : Prop} [Decidable test] {n1 n2 n3 n4 : Next} :
    ∀ a ∈ (if valid = true then
        if s.validateEc cec p = true then
          if test then (look cpd ++ look cec ++ [.cast cec.obj .ec, .read cec.obj], n1)
          else (look cpd ++ look cec ++ [.cast cec.obj .ec, .read cec.obj], n2)
        else (look cpd ++ look cec, n3)
      else (look cpd, n4)).1, Access.Good s a := by
  have both : ∀ a ∈ look cpd ++ look cec, Access.Good s a :=
    List.forall_mem_append.mpr ⟨look_good inv heldPd, look_good inv heldEc⟩
  split
  · split
    · rename_i is
      obtain ⟨k, a, evt, cpu, q, object, -⟩ := heldEc.ec is
      have all : ∀ a ∈ look cpd ++ look cec ++ [.cast cec.obj .ec, .read cec.obj], Access.Good s a :=
        List.forall_mem_append.mpr ⟨both, List.forall_mem_cons.mpr
          ⟨good_cast inv object, List.forall_mem_singleton.mpr (good_read inv object)⟩⟩
      split
      · exact all
      · exact all
    · exact both
  · exact look_good inv heldPd

/-- **All that a hypercall accesses is what it should be**, given what its capabilities are worth. -/
theorem handle_good {e space : Word} {call : Call} {caps : List Capability} (held : ∀ c ∈ caps, s.Held c) :
    ∀ a ∈ (s.handle e space call caps).1, Access.Good s a := by
  unfold handle
  split
  case h_1 _ cpt => exact call_good inv (held cpt List.mem_cons_self)
  case h_2 _ cpt => exact call_good inv (held cpt List.mem_cons_self)
  case h_3 op sel _ cpd =>
      have held := held cpd List.mem_cons_self
      refine checked inv held fun valid => ?_
      obtain ⟨a, b, d, q, object, -⟩ := held.pd valid
      exact List.forall_mem_singleton.mpr (good_cast inv object)
  case h_4 cpd =>
      have held := held cpd List.mem_cons_self
      refine checked inv held fun valid => ?_
      obtain ⟨a, b, d, q, object, -⟩ := held.pd valid
      exact List.forall_mem_singleton.mpr (good_cast inv object)
  case h_5 cpd cec =>
      exact bind_good inv (held cpd List.mem_cons_self) (held cec (List.mem_cons_of_mem _ List.mem_cons_self))
  case h_6 cpd cec =>
      exact bind_good inv (held cpd List.mem_cons_self) (held cec (List.mem_cons_of_mem _ List.mem_cons_self))
  case h_7 cpd =>
      have good := look_good inv (held cpd List.mem_cons_self)
      split
      · exact good
      · exact good
  case h_8 r cst cdt =>
      have heldSrc := held cst List.mem_cons_self
      have heldDst := held cdt (List.mem_cons_of_mem _ List.mem_cons_self)
      split
      · rename_i may
        simp only [mayTakeGrant, ne_eq, decide_not, Bool.and_eq_true, Bool.not_eq_true', decide_eq_false_iff_not] at may
        obtain ⟨k, object, kobject⟩ := some_of_prm heldSrc may.1
        obtain ⟨k', object', kobject'⟩ := some_of_prm heldDst may.2
        have reads : ∀ a ∈ [Access.read cst.obj, .read cdt.obj], Access.Good s a :=
          List.forall_mem_cons.mpr ⟨good_read inv object, List.forall_mem_singleton.mpr (good_read inv object')⟩
        rw [kobject, kobject']
        dsimp only
        split
        · rename_i types
          exact List.forall_mem_append.mpr ⟨reads, ctrlPd_good inv object object' types.1 types.2 r⟩
        · exact reads
      · exact fun a none_ => nomatch none_
  case h_9 cec =>
      have held := held cec List.mem_cons_self
      refine checked inv held fun valid => ?_
      obtain ⟨k, a, evt, cpu, q, object, -⟩ := held.ec valid
      exact List.forall_mem_singleton.mpr (good_cast inv object)
  case h_10 csc =>
      have held := held csc List.mem_cons_self
      refine checked inv held fun valid => ?_
      exact List.forall_mem_singleton.mpr (good_cast inv (held.sc valid))
  case h_11 cpt =>
      have held := held cpt List.mem_cons_self
      refine checked inv held fun valid => ?_
      obtain ⟨ec, object⟩ := held.pt valid
      exact List.forall_mem_singleton.mpr (good_cast inv object)
  case h_12 op _ csm =>
      have held := held csm List.mem_cons_self
      refine checked inv held fun valid => ?_
      obtain ⟨id, q, object, -⟩ := held.sm valid
      exact List.forall_mem_singleton.mpr (good_cast inv object)
  case h_13 csm =>
      have held := held csm List.mem_cons_self
      refine checked inv held fun valid => ?_
      obtain ⟨id, q, object, granted, le⟩ := held.sm valid
      refine List.forall_mem_cons.mpr ⟨good_cast inv object, List.forall_mem_singleton.mpr ?_⟩
      have is : s.idOf csm.obj = id := by rw [idOf, object]
      exact decide_eq_true (is ▸ assignable inv object granted le)
  case h_14 smmu csp =>
      have held := held csp List.mem_cons_self
      have good := look_good inv held
      split
      · rename_i valid
        split
        · have object := held.space (k := .dma) valid
          exact List.forall_mem_append.mpr ⟨good, List.forall_mem_singleton.mpr (good_cast inv object)⟩
        · exact good
      · exact good
  case h_15 cgst cpio cmsr =>
      have heldGst := held cgst List.mem_cons_self
      have heldPio := held cpio (List.mem_cons_of_mem _ List.mem_cons_self)
      have heldMsr := held cmsr (List.mem_cons_of_mem _ (List.mem_cons_of_mem _ List.mem_cons_self))
      have two : ∀ a ∈ look cgst ++ look cpio, Access.Good s a :=
        List.forall_mem_append.mpr ⟨look_good inv heldGst, look_good inv heldPio⟩
      have three : ∀ a ∈ look cgst ++ look cpio ++ look cmsr, Access.Good s a :=
        List.forall_mem_append.mpr ⟨two, look_good inv heldMsr⟩
      split
      · rename_i gst
        split
        · rename_i pio
          split
          · rename_i msr
            have object := heldGst.space (k := .gst) gst
            have object' := heldPio.space (k := .pio) pio
            have object'' := heldMsr.space (k := .msr) msr
            refine List.forall_mem_append.mpr ⟨three, List.forall_mem_cons.mpr ⟨good_cast inv object, ?_⟩⟩
            exact List.forall_mem_cons.mpr ⟨good_cast inv object', List.forall_mem_singleton.mpr (good_cast inv object'')⟩
          · exact three
        · exact two
      · exact look_good inv heldGst
  case h_16 cgst =>
      have held := held cgst List.mem_cons_self
      refine checked inv held fun valid => ?_
      exact List.forall_mem_singleton.mpr (good_cast inv (held.space (k := .gst) valid))
  case h_17 => exact fun a none_ => nomatch none_

/-- The accesses of a step -/
theorem accesses_good (i : Word × Input) : ∀ a ∈ s.accesses i, Access.Good s a := by
  unfold accesses
  split
  · rename_i at_ _
    have settled := inv.place i.1
    rw [at_] at settled
    exact handle_good inv settled
  · exact fun a none_ => nomatch none_

end Good

/-- **Downcast safety**: in every state that hypercalls reach from a booted system,
under every interleaving, the steps of all threads read, cast and assert only what is
right, and so would any hypercall of any caller with any operands, whatever selectors
of its object space it names. -/
theorem downcast_safe {cfg : Config} {s0 s : System} (booted : s0.Booted) {inputs : List (Word × Input)}
    (run : runs (fun i s => s.step cfg i) s0 inputs = some s) :
    (∀ i, ∀ a ∈ s.accesses i, Access.Good s a) ∧
      ∀ e space evt call, ∀ a ∈ (s.handle e space call ((call.sels evt).map (s.caps space).lookup)).1, Access.Good s a := by
  obtain ⟨inv, -⟩ := booted.inv.runs run
  refine ⟨accesses_good inv, fun e space evt call => handle_good inv fun c mem => ?_⟩
  obtain ⟨sel, -, rfl⟩ := List.mem_map.mp mem
  exact inv.caps space _

/-- The root thread asks for a portal of its own, and has looked everything up. -/
def portalRun : Option System :=
  runs (fun i s => s.step ⟨1, fun _ => true, true⟩ i) boot
    [(0x3000#64, .call (.createPt 0#64 (BitVec.ofNat 64 (objNum - 3)) (BitVec.ofNat 64 (objNum - 4)))),
      (0x3000#64, .go), (0x3000#64, .go)]

theorem downcast_safe_portal : ∃ s, portalRun = some s ∧ ∀ i, ∀ a ∈ s.accesses i, Access.Good s a := by
  have runs_ : portalRun.isSome = true := by decide +kernel
  obtain ⟨s, run⟩ := Option.isSome_iff_exists.mp runs_
  exact ⟨s, run, (downcast_safe boot_booted run).1⟩

end System

end Nova.Kernel.Syscall
