/-
# Nova.Kernel.Syscall — hypercalls and the kernel objects that they reach

The hypercalls of `src/syscall.cpp` look capabilities up in the object space of the
caller, validate them, cast the pointer in them to the class that they expect, and
then create an object, delegate capabilities or do something with the object.  The
model has the kernel objects by address, with the fields that the hypercalls read,
and the object spaces as maps from selectors to capabilities (what
`Nova.Kernel.SpaceObj` shows of the tables).

Threads interleave between their accesses to object spaces: each lookup, each
insertion and each round of a delegation.  Every static cast, every read of a kernel
object through a pointer and every assertion on the way is an `Access`; memory
without a kernel object reads as anything.

Ghost: the permissions with which the first capability for an object was inserted,
and the PD whose capability a `sys_create_pd` used for a new PD.
-/
import Nova.Kernel.ObjDelegate
import Nova.Theory.Runs

namespace Nova.Kernel.Syscall

open Nova.Theory.Words

set_option autoImplicit false

/-! ## Kernel objects -/

/-- The subclasses of `Space` -/
inductive SpaceKind where
  | obj | hst | gst | dma | pio | msr
  deriving DecidableEq

def SpaceKind.subtype : SpaceKind → ObjSubtype
  | .obj => .obj
  | .hst => .hst
  | .gst => .gst
  | .dma => .dma
  | .pio => .pio
  | .msr => .msr

/-- `Perm_sp::DEFINED_OBJ` and so on -/
def SpaceKind.defined : SpaceKind → Perm
  | .obj => Perm.definedObj
  | .hst => Perm.definedHst
  | .gst => Perm.definedGst
  | .dma => Perm.definedDma
  | .pio => Perm.definedPio
  | .msr => Perm.definedMsr

inductive EcKind where
  | localThread | globalThread | vcpuReal | vcpuOffs
  deriving DecidableEq

def EcKind.subtype : EcKind → ObjSubtype
  | .localThread => .ecLocal
  | .globalThread => .ecGlobal
  | .vcpuReal => .ecVcpuReal
  | .vcpuOffs => .ecVcpuOffs

/-- The classes that pointers to kernel objects are cast to -/
inductive Class where
  | pd | space (k : SpaceKind) | ec | sc | pt | sm
  deriving DecidableEq

/-- `~0U`, the `id` of a semaphore without an interrupt -/
def noId : BitVec 32 := -1

/-- A kernel object by its constructor, with the fields that hypercalls read -/
inductive Kobject where
  | pd (spaceObj spaceHst spacePio : Word)
  | space (k : SpaceKind)
  | ec (k : EcKind) (obj evt : Word) (cpu : Nat)
  | sc
  | pt (ec : Word)
  | sm (id : BitVec 32)
  deriving DecidableEq

namespace Kobject

/-- The dynamic type -/
def cls : Kobject → Class
  | .pd .. => .pd
  | .space k => .space k
  | .ec .. => .ec
  | .sc => .sc
  | .pt _ => .pt
  | .sm _ => .sm

/-- The first argument that the constructors pass to `Kobject` -/
def type : Kobject → ObjType
  | .pd .. => .pd
  | .space _ => .pd
  | .ec .. => .ec
  | .sc => .sc
  | .pt _ => .pt
  | .sm _ => .sm

/-- The second argument, `NONE` by default -/
def subtype : Kobject → ObjSubtype
  | .space k => k.subtype
  | .ec k .. => k.subtype
  | _ => .none

/-- The permissions that a capability for the object is inserted with -/
def defined : Kobject → Perm
  | .pd .. => Perm.definedPd
  | .space k => k.defined
  | .ec .. => Perm.definedEc
  | .sc => Perm.definedSc
  | .pt _ => Perm.definedPt
  | .sm id => if id = noId then Perm.definedSm else Perm.definedInt

end Kobject

/-! ## The state -/

/-- What a factory is called with: the arguments that matter of the constructor -/
inductive New where
  | pd
  | space (k : SpaceKind)
  | ec (k : EcKind) (evt : Word) (cpu : Nat)
  | sc
  | pt (ec : Word)
  | sm (id : BitVec 32)

/-- A call of one of `Pd::create_*`: for the PD `pd`, with a capability into the object space `space` -/
structure Making where
  new : New
  pd : Word
  space : Word
  sel : Word
  prm : Perm

/-- A call of `Space_obj::delegate` with `k` rounds to go -/
structure Delegation where
  src : Word
  dst : Word
  sSel : Word
  dSel : Word
  pmm : Perm
  k : Nat

/-- The hypercalls that use capabilities, with what they take from the registers, and the three other places that look
one up: an event, and the assignment of spaces to a vCPU -/
inductive Call where
  | ipcCall (pt : Word)
  | sendMsg (ep : Word)
  | createPd (op : BitVec 8) (sel pd : Word)
  | createEc (flg : BitVec 8) (sel pd : Word) (cpu : Nat) (utcb eb : Word)
  | createSc (sel pd ec : Word) (budget : BitVec 16) (prio : BitVec 8) (cos : BitVec 16)
  | createPt (sel pd ec : Word)
  | createSm (sel pd : Word)
  | ctrlPd (src dst : Word) (r : SysCtrlPd)
  | ctrlEc (ec : Word)
  | ctrlSc (sc : Word)
  | ctrlPt (pt : Word)
  | ctrlSm (op : Bool) (sm : Word)
  | assignInt (sm : Word) (cpu : Nat)
  | assignDev (dma : Word) (smmu : Bool)
  | assignSpaces (gst pio msr : Word)
  | assignGst (gst : Word)

/-- Where a thread is in a hypercall; `rest` are the selectors that it has not looked up yet -/
inductive Place where
  | idle
  | lookup (space : Word) (call : Call) (rest : List Word) (caps : List Capability)
  | create (m : Making)
  | insert (m : Making) (o : Word)
  | publish (m : Making) (o : Word)
  | destroy (m : Making) (o : Word)
  | read (d : Delegation)
  | write (d : Delegation) (cap : Capability)

structure Config where
  /-- `Cpu::count` -/
  cpus : Nat
  /-- `Cos::valid_cos` -/
  validCos : BitVec 16 → Bool
  /-- `Ec_arch::needs_pio` -/
  needsPio : Bool

structure System where
  object : Word → Option Kobject
  /-- The first two bytes of memory, where there is no kernel object -/
  junk : Word → ObjType × ObjSubtype
  /-- The capabilities of the object space at an address -/
  caps : Word → Caps
  /-- `Pd::root` -/
  root : Word
  /-- By the address of the Ec -/
  place : Word → Place
  status : Word → Status
  granted : Word → Option Perm
  creator : Word → Option Word

/-- What a hypercall does with a pointer to a kernel object -/
inductive Access where
  /-- A member of the object is read -/
  | read (o : Word)
  | cast (o : Word) (c : Class)
  | assertion (holds : Bool)

/-- What a hypercall goes on with once it knows its capabilities -/
inductive Next where
  | finish (r : Status)
  | make (m : Making)
  | delegate (d : Delegation)

/-- What the environment decides: the hypercall, the result of the allocations in `create`, whether there is memory for
Captables, and whether the bit of the space was this call's -/
inductive Input where
  | call (c : Call)
  | go
  | made (o : Word)
  | failed (r : Status)
  | memory (enough : Bool)
  | attached (a : Bool)

namespace System

/-- `type` and `subtype` -/
def kobject (s : System) (o : Word) : ObjType × ObjSubtype :=
  match s.object o with
  | some k => (k.type, k.subtype)
  | none => s.junk o

/-- `get_obj` of a PD -/
def objOf (s : System) (pd : Word) : Word :=
  match s.object pd with
  | some (.pd o _ _) => o
  | _ => 0#64

def hstOf (s : System) (pd : Word) : Word :=
  match s.object pd with
  | some (.pd _ h _) => h
  | _ => 0#64

def pioOf (s : System) (pd : Word) : Word :=
  match s.object pd with
  | some (.pd _ _ p) => p
  | _ => 0#64

/-- `pt->ec` -/
def ecOf (s : System) (pt : Word) : Word :=
  match s.object pt with
  | some (.pt ec) => ec
  | _ => 0#64

/-- `ec->cpu` -/
def cpuOf (s : System) (ec : Word) : Nat :=
  match s.object ec with
  | some (.ec _ _ _ cpu) => cpu
  | _ => 0

/-- `sm->get_id()` -/
def idOf (s : System) (sm : Word) : BitVec 32 :=
  match s.object sm with
  | some (.sm id) => id
  | _ => 0#32

/-! ## `validate` -/

/-- `validate (t, p)` -/
def validate (s : System) (c : Capability) (t : ObjType) (p : Perm) : Bool :=
  c.obj ≠ 0#64 && (s.kobject c.obj).1 = t && c.prm &&& p = p

/-- `validate (t, s, p)` -/
def validateSub (s : System) (c : Capability) (t : ObjType) (u : ObjSubtype) (p : Perm) : Bool :=
  c.obj ≠ 0#64 && (s.kobject c.obj).1 = t && (s.kobject c.obj).2 = u && c.prm &&& p = p

def validateSp (s : System) (c : Capability) (p : Perm) (u : ObjSubtype) : Bool := s.validateSub c .pd u p

def validatePd (s : System) (c : Capability) (p : Perm) : Bool := s.validateSub c .pd .pd p

def validateEc (s : System) (c : Capability) (p : Perm) : Bool := s.validate c .ec p

def validateSc (s : System) (c : Capability) (p : Perm) : Bool := s.validate c .sc p

def validatePt (s : System) (c : Capability) (p : Perm) : Bool := s.validate c .pt p

def validateSm (s : System) (c : Capability) (p : Perm) : Bool := s.validate c .sm p

/-- The object that `validate` reads -/
def look (c : Capability) : List Access := if c.obj = 0#64 then [] else [.read c.obj]

/-- `validate_take_grant` checks the permissions before it reads the objects. -/
def mayTakeGrant (cst cdt : Capability) : Bool := cst.prm &&& Perm.spTake ≠ 0#32 && cdt.prm &&& Perm.spGrant ≠ 0#32

/-! ## The hypercalls -/

/-- A portal is called, with the permission `p`. -/
def call (s : System) (e : Word) (cpt : Capability) (p : Perm) : List Access × Next :=
  if s.validatePt cpt p then
    let ec := s.ecOf cpt.obj
    if s.cpuOf e ≠ s.cpuOf ec then (look cpt ++ [.cast cpt.obj .pt, .read ec], .finish .badCpu)
    else (look cpt ++ [.cast cpt.obj .pt, .read ec, .assertion ((s.kobject ec).2 = .ecLocal)], .finish .success)
  else (look cpt, .finish .badCap)

/-- The switch of `sys_create_pd` -/
def createPd (op : BitVec 8) (pd space sel : Word) (prm : Perm) : Next :=
  match op.toNat with
  | 0 => .make ⟨.pd, pd, space, sel, prm⟩
  | 1 => .make ⟨.space .obj, pd, space, sel, Perm.definedObj⟩
  | 2 => .make ⟨.space .hst, pd, space, sel, Perm.definedHst⟩
  | 3 => .make ⟨.space .gst, pd, space, sel, Perm.definedGst⟩
  | 4 => .make ⟨.space .dma, pd, space, sel, Perm.definedDma⟩
  | 5 => .make ⟨.space .pio, pd, space, sel, Perm.definedPio⟩
  | 6 => .make ⟨.space .msr, pd, space, sel, Perm.definedMsr⟩
  | _ => .finish .badPar

/-- The constructor that `Pd::create_ec` selects -/
def ecKind (flg : BitVec 8) : EcKind :=
  if flg.getLsbD 1 then if flg.getLsbD 0 then .vcpuOffs else .vcpuReal
  else if flg.getLsbD 0 then .globalThread else .localThread

/-- `Space_obj::delegate` -/
def delegate (src dst : Word) (r : SysCtrlPd) : Next :=
  let sEnd := r.ssb + bitn r.ord
  let dEnd := r.dsb + bitn r.ord
  if sEnd.toNat > objNum ∨ dEnd.toNat > objNum then .finish .badPar
  else .delegate ⟨src, dst, r.ssb, r.dsb, r.pmm, sEnd.toNat - r.ssb.toNat⟩

/-- `sys_ctrl_pd` with the two subtypes -/
def ctrlPd (src dst : Word) (st dt : ObjSubtype) (r : SysCtrlPd) : List Access × Next :=
  if st = .hst then
    if dt = .hst then ([.cast dst (.space .hst), .cast src (.space .hst)], .finish .success)
    else if dt = .gst then ([.cast dst (.space .gst), .cast src (.space .hst)], .finish .success)
    else if dt = .dma then ([.cast dst (.space .dma), .cast src (.space .hst)], .finish .success)
    else ([], .finish .badCap)
  else if st = .obj ∧ dt = st then ([.cast dst (.space .obj), .cast src (.space .obj)], delegate src dst r)
  else if st = .pio ∧ dt = st then ([.cast dst (.space .pio), .cast src (.space .pio)], .finish .success)
  else if st = .msr ∧ dt = st then ([.cast dst (.space .msr), .cast src (.space .msr)], .finish .success)
  else ([], .finish .badCap)

/-- What a hypercall of `e`, whose object space is `space`, does once it has looked up `caps`.  What it then does beside
creating objects and delegating capabilities is not modelled here. -/
def handle (s : System) (e space : Word) : Call → List Capability → List Access × Next
  | .ipcCall _, [cpt] => s.call e cpt Perm.ptCall
  | .sendMsg _, [cpt] => s.call e cpt Perm.ptEvent
  | .createPd op sel _, [cpd] =>
      if s.validatePd cpd Perm.pdPd then (look cpd ++ [.cast cpd.obj .pd], createPd op cpd.obj space sel cpd.prm)
      else (look cpd, .finish .badCap)
  | .createEc flg sel _ cpu _ eb, [cpd] =>
      if s.validatePd cpd Perm.pdEc then
        (look cpd ++ [.cast cpd.obj .pd], .make ⟨.ec (ecKind flg) eb cpu, cpd.obj, space, sel, Perm.definedEc⟩)
      else (look cpd, .finish .badCap)
  | .createSc sel _ _ _ _ _, [cpd, cec] =>
      if s.validatePd cpd Perm.pdSc then
        if s.validateEc cec Perm.ecBindSc then
          if (s.kobject cec.obj).2 = .ecLocal then
            (look cpd ++ look cec ++ [.cast cec.obj .ec, .read cec.obj], .finish .badCap)
          else
            (look cpd ++ look cec ++ [.cast cec.obj .ec, .read cec.obj],
              .make ⟨.sc, cpd.obj, space, sel, Perm.definedSc⟩)
        else (look cpd ++ look cec, .finish .badCap)
      else (look cpd, .finish .badCap)
  | .createPt sel _ _, [cpd, cec] =>
      if s.validatePd cpd Perm.pdPt then
        if s.validateEc cec Perm.ecBindPt then
          if (s.kobject cec.obj).2 ≠ .ecLocal then
            (look cpd ++ look cec ++ [.cast cec.obj .ec, .read cec.obj], .finish .badCap)
          else
            (look cpd ++ look cec ++ [.cast cec.obj .ec, .read cec.obj],
              .make ⟨.pt cec.obj, cpd.obj, space, sel, Perm.definedPt⟩)
        else (look cpd ++ look cec, .finish .badCap)
      else (look cpd, .finish .badCap)
  | .createSm sel _, [cpd] =>
      if s.validatePd cpd Perm.pdSm then (look cpd, .make ⟨.sm noId, cpd.obj, space, sel, Perm.definedSm⟩)
      else (look cpd, .finish .badCap)
  | .ctrlPd _ _ r, [cst, cdt] =>
      if mayTakeGrant cst cdt then
        let (src, dst) := (s.kobject cst.obj, s.kobject cdt.obj)
        if src.1 = .pd ∧ dst.1 = .pd then
          let (casts, next) := ctrlPd cst.obj cdt.obj src.2 dst.2 r
          ([.read cst.obj, .read cdt.obj] ++ casts, next)
        else ([.read cst.obj, .read cdt.obj], .finish .badCap)
      else ([], .finish .badCap)
  | .ctrlEc _, [cec] =>
      if s.validateEc cec Perm.ecCtrl then (look cec ++ [.cast cec.obj .ec], .finish .success)
      else (look cec, .finish .badCap)
  | .ctrlSc _, [csc] =>
      if s.validateSc csc Perm.scCtrl then (look csc ++ [.cast csc.obj .sc], .finish .success)
      else (look csc, .finish .badCap)
  | .ctrlPt _, [cpt] =>
      if s.validatePt cpt Perm.ptCtrl then (look cpt ++ [.cast cpt.obj .pt], .finish .success)
      else (look cpt, .finish .badCap)
  | .ctrlSm op _, [csm] =>
      if s.validateSm csm (if op then Perm.smCtrlDn else Perm.smCtrlUp) then
        (look csm ++ [.cast csm.obj .sm], .finish .success)
      else (look csm, .finish .badCap)
  | .assignInt _ _, [csm] =>
      if s.validateSm csm Perm.smAssign then
        (look csm ++ [.cast csm.obj .sm, .assertion (s.idOf csm.obj ≠ noId)], .finish .success)
      else (look csm, .finish .badCap)
  | .assignDev _ smmu, [csp] =>
      if s.validateSp csp Perm.spAssign .dma then
        if smmu then (look csp ++ [.cast csp.obj (.space .dma)], .finish .success) else (look csp, .finish .badDev)
      else (look csp, .finish .badCap)
  | .assignSpaces _ _ _, [cgst, cpio, cmsr] =>
      if s.validateSp cgst Perm.spAssign .gst then
        if s.validateSp cpio Perm.spAssign .pio then
          if s.validateSp cmsr Perm.spAssign .msr then
            (look cgst ++ look cpio ++ look cmsr ++
              [.cast cgst.obj (.space .gst), .cast cpio.obj (.space .pio), .cast cmsr.obj (.space .msr)],
              .finish .success)
          else (look cgst ++ look cpio ++ look cmsr, .finish .badCap)
        else (look cgst ++ look cpio, .finish .badCap)
      else (look cgst, .finish .badCap)
  | .assignGst _, [cgst] =>
      if s.validateSp cgst Perm.spAssign .gst then (look cgst ++ [.cast cgst.obj (.space .gst)], .finish .success)
      else (look cgst, .finish .badCap)
  | _, _ => ([], .finish .badCap)

end System

/-- The selectors that a call looks up, by a thread whose events start at `evt` -/
def Call.sels (evt : Word) : Call → List Word
  | .ipcCall pt => [pt]
  | .sendMsg ep => [evt + ep]
  | .createPd _ _ pd => [pd]
  | .createEc _ _ pd _ _ _ => [pd]
  | .createSc _ pd ec _ _ _ => [pd, ec]
  | .createPt _ pd ec => [pd, ec]
  | .createSm _ pd => [pd]
  | .ctrlPd src dst _ => [src, dst]
  | .ctrlEc ec => [ec]
  | .ctrlSc sc => [sc]
  | .ctrlPt pt => [pt]
  | .ctrlSm _ sm => [sm]
  | .assignInt sm _ => [sm]
  | .assignDev dma _ => [dma]
  | .assignSpaces gst pio msr => [gst, pio, msr]
  | .assignGst gst => [gst]

namespace System

/-- What a call checks before it looks anything up -/
def refuse (cfg : Config) (s : System) (space : Word) : Call → Option Status
  | .createEc _ _ _ cpu utcb _ =>
      if utcb.toNat ≥ 2 ^ 47 then some .badPar else if cpu ≥ cfg.cpus then some .badCpu else none
  | .createSc _ _ _ budget prio cos =>
      if prio = 0#8 ∨ budget = 0#16 ∨ !cfg.validCos cos then some .badPar else none
  | .ctrlPd _ _ r => if r.Aligned then none else some .badPar
  | .assignInt _ cpu => if cpu ≥ cfg.cpus then some .badCpu else none
  | .assignDev _ _ => if space ≠ s.objOf s.root then some .badHyp else none
  | _ => none

/-- The object that the factories construct, unless something that they need is missing -/
def construct (cfg : Config) (s : System) (m : Making) : Option Kobject :=
  match m.new with
  | .pd => some (.pd 0#64 0#64 0#64)
  | .space k => if k = .pio ∧ s.hstOf m.pd = 0#64 then none else some (.space k)
  | .ec k evt cpu =>
      let thread := k = .localThread ∨ k = .globalThread
      if s.objOf m.pd = 0#64 ∨ s.hstOf m.pd = 0#64 ∨ thread ∧ cfg.needsPio ∧ s.pioOf m.pd = 0#64 then none
      else some (.ec k (s.objOf m.pd) evt cpu)
  | .sc => some .sc
  | .pt ec => some (.pt ec)
  | .sm id => some (.sm id)

def move (s : System) (e : Word) (p : Place) : System := { s with place := Function.update s.place e p }

def answer (s : System) (e : Word) (r : Status) : System :=
  { s with place := Function.update s.place e .idle, status := Function.update s.status e r }

def go (s : System) (e : Word) : Next → System
  | .finish r => s.answer e r
  | .make m => s.move e (.create m)
  | .delegate d => s.move e (.read d)

/-- `space_obj = o` and so on, in the PD -/
def publish (s : System) (m : Making) (o : Word) : System :=
  match m.new, s.object m.pd with
  | .space .obj, some (.pd _ h p) => { s with object := Function.update s.object m.pd (some (.pd o h p)) }
  | .space .hst, some (.pd b _ p) => { s with object := Function.update s.object m.pd (some (.pd b o p)) }
  | .space .pio, some (.pd b h _) => { s with object := Function.update s.object m.pd (some (.pd b h o)) }
  | _, _ => s

/-- One access to an object space, or a step between two of them, by the thread `e` -/
def step (cfg : Config) (i : Word × Input) (s : System) : Option System :=
  let e := i.1
  match s.place e, i.2 with
  | .idle, .call c =>
      match s.object e with
      | some (.ec _ space evt _) =>
          match s.refuse cfg space c with
          | some r => some (s.answer e r)
          | none => some (s.move e (.lookup space c (c.sels evt) []))
      | _ => none
  | .lookup space c (sel :: rest) caps, .go =>
      some (s.move e (.lookup space c rest (caps ++ [(s.caps space).lookup sel])))
  | .lookup space c [] caps, .go => some (s.go e (s.handle e space c caps).2)
  | .create m, .made o =>
      -- the allocator returns memory that is not in use
      if o = 0#64 ∨ ¬ Capability.Aligned o ∨ (s.object o).isSome then none
      else
        match s.construct cfg m with
        | none => some (s.answer e .aborted)
        | some k =>
            some ({ s with object := Function.update s.object o (some k), caps := Function.update s.caps o .empty }.move e
              (.insert m o))
  | .create _, .failed r => some (s.answer e r)
  | .insert m o, .memory enough =>
      let (r, caps) := (s.caps m.space).insert m.sel (.ofObject o m.prm) enough
      if r = .success then
        some ({ s with
          caps := Function.update s.caps m.space caps
          granted := Function.update s.granted o (some m.prm)
          creator := Function.update s.creator o (some m.pd) }.move e (.publish m o))
      else some ({ s with status := Function.update s.status e r }.move e (.destroy m o))
  | .publish m o, .attached a => some ((if a then s.publish m o else s).answer e .success)
  | .destroy _ o, .go => some ({ s with object := Function.update s.object o none }.answer e (s.status e))
  | .read d, .go =>
      if d.k = 0 then some (s.answer e .success) else some (s.move e (.write d ((s.caps d.src).lookup d.sSel)))
  | .write d cap, .memory enough =>
      let (r, _, caps) := (s.caps d.dst).update d.dSel (.ofObject cap.obj (cap.prm &&& d.pmm)) enough
      if r = .success then
        some ({ s with caps := Function.update s.caps d.dst caps }.move e
          (.read { d with sSel := d.sSel + 1#64, dSel := d.dSel + 1#64, k := d.k - 1 }))
      else some (s.answer e r)
  | _, _ => none

/-- The accesses of a step -/
def accesses (i : Word × Input) (s : System) : List Access :=
  match s.place i.1, i.2 with
  | .lookup space c [] caps, .go => (s.handle i.1 space c caps).1
  | _, _ => []

end System

end Nova.Kernel.Syscall
