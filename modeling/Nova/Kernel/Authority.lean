/-
# Nova.Kernel.Authority — capabilities confine authority

No sequence of hypercalls, with any selectors, orders and masks, lets a capability
carry more permissions than the first capability for its object.

* `Held` is what every capability satisfies, in an object space or on its way into
  one; `Inv` says so of all of them, and that an object that somebody may still
  destroy has no capability yet.
* `Effect` says once what a step can do; `Inv.step` goes through its six cases.
* `Inv.runs` is the result, for every run; `boot` is a booted system.
-/
import Nova.Kernel.Syscall

namespace Nova.Kernel.Syscall

open Nova.Theory.Words
open Nova.Theory.Runs

set_option autoImplicit false

/-- The permissions of the first capability -/
def New.defined : New → Perm
  | .pd => Perm.definedPd
  | .space k => k.defined
  | .ec _ _ _ => Perm.definedEc
  | .sc => Perm.definedSc
  | .pt _ => Perm.definedPt
  | .sm id => if id = noId then Perm.definedSm else Perm.definedInt

/-- The object that a thread has constructed and nobody else knows -/
def Place.owns : Place → Option Word
  | .insert _ o => some o
  | .destroy _ o => some o
  | _ => none

namespace System

/-- Null, or a capability for an object with permissions that were granted -/
def Held (s : System) (c : Capability) : Prop :=
  c = .null ∨ ∃ k p, s.object c.obj = some k ∧ s.granted c.obj = some p ∧ c.prm.Le p ∧ c.prm ≠ 0#32

/-- A local thread that a capability was inserted for -/
def Local (s : System) (ec : Word) : Prop :=
  ∃ space evt cpu p, s.object ec = some (.ec .localThread space evt cpu) ∧ s.granted ec = some p

/-- What a call of `create` may ask for -/
structure Fit (s : System) (m : Making) : Prop where
  any : m.prm ≠ 0#32
  narrow : m.prm.Narrow
  defined : m.prm.Le m.new.defined
  pd : m.new = .pd → ∃ p, s.granted m.pd = some p ∧ m.prm.Le p
  portal : ∀ ec, m.new = .pt ec → s.Local ec

/-- What holds of a thread in a hypercall -/
def Settled (s : System) : Place → Prop
  | .lookup _ _ _ caps => ∀ c ∈ caps, s.Held c
  | .create m => s.Fit m
  | .insert m o => s.Fit m ∧ s.granted o = none ∧ ∃ k, s.object o = some k ∧ k.defined = m.new.defined ∧
      (k.cls = .pd → m.new = .pd)
  | .destroy _ o => s.granted o = none ∧ (s.object o).isSome
  | .write _ cap => s.Held cap
  | _ => True

/-- The invariant -/
structure Inv (s : System) : Prop where
  real : ∀ o k, s.object o = some k → o ≠ 0#64 ∧ Capability.Aligned o
  granted : ∀ o p, s.granted o = some p → ∃ k, s.object o = some k ∧ p ≠ 0#32 ∧ p.Narrow ∧ p.Le k.defined
  creator : ∀ o p pd, s.granted o = some p → s.creator o = some pd → (∃ k, s.object o = some k ∧ k.cls = .pd) →
    ∃ q, s.granted pd = some q ∧ p.Le q
  portal : ∀ o ec, s.object o = some (.pt ec) → s.Local ec
  caps : ∀ a key, s.Held (s.caps a key)
  place : ∀ e, s.Settled (s.place e)
  unique : ∀ e e' o, (s.place e).owns = some o → (s.place e').owns = some o → e = e'

/-! ## Capabilities -/

theorem Held.real {s : System} (inv : s.Inv) {c : Capability} (held : s.Held c) : c = .null ∨ c.obj ≠ 0#64 := by
  rcases held with null | ⟨k, p, object, -⟩
  · exact Or.inl null
  · exact Or.inr (inv.real _ k object).1

/-- The capability that is inserted for a new object -/
theorem held_ofObject {s : System} {o : Word} {p q : Perm} {k : Kobject} (aligned : Capability.Aligned o)
    (narrow : p.Narrow) (object : s.object o = some k) (granted : s.granted o = some q) (le : p.Le q) :
    s.Held (.ofObject o p) := by
  by_cases any : p = 0#32
  · rw [any]
    exact Or.inl rfl
  · refine Or.inr ⟨k, q, ?_, ?_, ?_, ?_⟩
    · rw [Capability.obj_ofObject aligned any]
      exact object
    · rw [Capability.obj_ofObject aligned any]
      exact granted
    · rw [Capability.prm_ofObject aligned narrow]
      exact le
    · rw [Capability.prm_ofObject aligned narrow]
      exact any

/-- A capability with fewer permissions -/
theorem Held.masked {s : System} {c : Capability} (held : s.Held c) (pmm : Perm) :
    s.Held (.ofObject c.obj (c.prm &&& pmm)) := by
  rcases held with rfl | ⟨k, p, object, granted, le, -⟩
  · have nothing : Capability.null.prm &&& pmm = 0#32 := by
      rw [Capability.prm_null]
      exact BitVec.zero_and
    rw [nothing]
    exact Or.inl rfl
  · exact held_ofObject (Capability.aligned_obj c) (c.prm_narrow.and pmm) object granted ((Perm.and_le _ _).trans le)

/-- A capability is stored. -/
theorem held_store {s : System} {caps : Word → Caps} (held : ∀ a key, s.Held (caps a key)) {cap : Capability}
    (new : s.Held cap) (space sel : Word) (a : Word) (key : Fin objNum) :
    s.Held (Function.update caps space ((caps space).store sel cap) a key) := by
  by_cases here : a = space
  · rw [here, Function.update_self, Caps.store]
    by_cases slot : key = Caps.key sel
    · rw [slot, Function.update_self]
      exact new
    · rw [Function.update_of_ne slot]
      exact held space key
  · rw [Function.update_of_ne here]
    exact held a key

/-! ## What a hypercall asks for -/

section Handle

variable {s : System} {c : Capability} {p : Perm}

theorem validate_iff {t : ObjType} : s.validate c t p = true ↔ c.obj ≠ 0#64 ∧ (s.kobject c.obj).1 = t ∧ p.Le c.prm := by
  simp [validate, Perm.Le, and_assoc, BitVec.and_comm p]

theorem validateSub_iff {t : ObjType} {u : ObjSubtype} : s.validateSub c t u p = true ↔
    c.obj ≠ 0#64 ∧ (s.kobject c.obj).1 = t ∧ (s.kobject c.obj).2 = u ∧ p.Le c.prm := by
  simp [validateSub, Perm.Le, and_assoc, BitVec.and_comm p]

/-- A capability that names something names an object. -/
theorem Held.object (held : s.Held c) (some_ : c.obj ≠ 0#64) : ∃ k q, s.object c.obj = some k ∧
    s.granted c.obj = some q ∧ c.prm.Le q ∧ c.prm ≠ 0#32 ∧ s.kobject c.obj = (k.type, k.subtype) := by
  rcases held with rfl | ⟨k, q, object, granted, le, any⟩
  · exact absurd Capability.obj_null some_
  · exact ⟨k, q, object, granted, le, any, by rw [kobject, object]⟩

/-- What a valid capability for a PD names -/
theorem Held.pd (held : s.Held c) (valid : s.validatePd c p = true) : ∃ a b d q, s.object c.obj = some (.pd a b d) ∧
    s.granted c.obj = some q ∧ c.prm.Le q ∧ c.prm ≠ 0#32 := by
  obtain ⟨some_, type, subtype, -⟩ := validateSub_iff.mp valid
  obtain ⟨k, q, object, granted, le, any, kobject⟩ := held.object some_
  rw [kobject] at type subtype
  cases k with
  | pd a b d => exact ⟨a, b, d, q, object, granted, le, any⟩
  | space k => cases k <;> cases subtype
  | ec | sc | pt | sm => cases type

/-- Only spaces have type PD and the subtype of a space. -/
theorem space_of_subtype {k : Kobject} {j : SpaceKind} (type : k.type = .pd) (subtype : k.subtype = j.subtype) :
    k = .space j := by
  cases k with
  | pd => cases j <;> cases subtype
  | space i => cases i <;> cases j <;> first | rfl | cases subtype
  | ec | sc | pt | sm => cases type

/-- What a valid capability for a space names -/
theorem Held.space (held : s.Held c) {k : SpaceKind} (valid : s.validateSp c p k.subtype = true) :
    s.object c.obj = some (.space k) := by
  obtain ⟨some_, type, subtype, -⟩ := validateSub_iff.mp valid
  obtain ⟨k', q, object, -, -, -, kobject⟩ := held.object some_
  rw [kobject] at type subtype
  rw [object, space_of_subtype type subtype]

/-- What a valid capability for an EC names -/
theorem Held.ec (held : s.Held c) (valid : s.validateEc c p = true) : ∃ k space evt cpu q,
    s.object c.obj = some (.ec k space evt cpu) ∧ s.granted c.obj = some q ∧ (s.kobject c.obj).2 = k.subtype := by
  obtain ⟨some_, type, -⟩ := validate_iff.mp valid
  obtain ⟨k, q, object, granted, -, -, kobject⟩ := held.object some_
  rw [kobject] at type ⊢
  cases k with
  | ec k space evt cpu => exact ⟨k, space, evt, cpu, q, object, granted, rfl⟩
  | pd | space | sc | pt | sm => cases type

/-- What a valid capability for an SC names -/
theorem Held.sc (held : s.Held c) (valid : s.validateSc c p = true) : s.object c.obj = some .sc := by
  obtain ⟨some_, type, -⟩ := validate_iff.mp valid
  obtain ⟨k, q, object, -, -, -, kobject⟩ := held.object some_
  rw [kobject] at type
  cases k with
  | sc => exact object
  | pd | space | ec | pt | sm => cases type

/-- What a valid capability for a portal names -/
theorem Held.pt (held : s.Held c) (valid : s.validatePt c p = true) : ∃ ec, s.object c.obj = some (.pt ec) := by
  obtain ⟨some_, type, -⟩ := validate_iff.mp valid
  obtain ⟨k, q, object, -, -, -, kobject⟩ := held.object some_
  rw [kobject] at type
  cases k with
  | pt ec => exact ⟨ec, object⟩
  | pd | space | ec | sc | sm => cases type

/-- What a valid capability for a semaphore names -/
theorem Held.sm (held : s.Held c) (valid : s.validateSm c p = true) : ∃ id q, s.object c.obj = some (.sm id) ∧
    s.granted c.obj = some q ∧ p.Le q := by
  obtain ⟨some_, type, le⟩ := validate_iff.mp valid
  obtain ⟨k, q, object, granted, le', -, kobject⟩ := held.object some_
  rw [kobject] at type
  cases k with
  | sm id => exact ⟨id, q, object, granted, le.trans le'⟩
  | pd | space | ec | sc | pt => cases type

theorem defined_facts : ∀ n : New, n.defined ≠ 0#32 ∧ n.defined.Narrow
  | .space k => by cases k <;> decide
  | .sm id => by
      by_cases none_ : id = noId
      · rw [none_]
        decide
      · simp only [New.defined, if_neg none_]
        decide
  | .pd => (by decide : Perm.definedPd ≠ 0#32 ∧ Perm.definedPd.Narrow)
  | .ec _ _ _ => (by decide : Perm.definedEc ≠ 0#32 ∧ Perm.definedEc.Narrow)
  | .sc => (by decide : Perm.definedSc ≠ 0#32 ∧ Perm.definedSc.Narrow)
  | .pt _ => (by decide : Perm.definedPt ≠ 0#32 ∧ Perm.definedPt.Narrow)

/-- A request with the permissions of its class, for anything but a PD -/
theorem Fit.plain {m : Making} (prm : m.prm = m.new.defined) (pd : m.new ≠ .pd)
    (portal : ∀ ec, m.new = .pt ec → s.Local ec) : s.Fit m := by
  have facts := defined_facts m.new
  exact ⟨prm ▸ facts.1, prm ▸ facts.2, prm ▸ Perm.Le.refl _, fun same => absurd same pd, portal⟩

/-- `sys_create_pd`: a PD gets the permissions of the capability that was used. -/
theorem Held.createPd (inv : s.Inv) (held : s.Held c) (valid : s.validatePd c p = true) {op : BitVec 8}
    {space sel : Word} {m : Making} (made : createPd op c.obj space sel c.prm = .make m) : s.Fit m := by
  unfold System.createPd at made
  split at made
  · obtain rfl := Next.make.inj made
    obtain ⟨a, b, d, q, object, granted, le, any⟩ := held.pd valid
    obtain ⟨k, object', -, -, bound⟩ := inv.granted _ q granted
    obtain rfl := Option.some.inj (object.symm.trans object')
    exact ⟨any, c.prm_narrow, le.trans bound, fun _ => ⟨q, granted, le⟩, nofun⟩
  · obtain rfl := Next.make.inj made
    exact .plain rfl nofun nofun
  · obtain rfl := Next.make.inj made
    exact .plain rfl nofun nofun
  · obtain rfl := Next.make.inj made
    exact .plain rfl nofun nofun
  · obtain rfl := Next.make.inj made
    exact .plain rfl nofun nofun
  · obtain rfl := Next.make.inj made
    exact .plain rfl nofun nofun
  · obtain rfl := Next.make.inj made
    exact .plain rfl nofun nofun
  · cases made

/-- Calling a portal creates nothing. -/
theorem call_next (s : System) (e : Word) (c : Capability) (p : Perm) : ∃ r, (s.call e c p).2 = .finish r := by
  unfold call
  split
  · dsimp only
    split
    · exact ⟨_, rfl⟩
    · exact ⟨_, rfl⟩
  · exact ⟨_, rfl⟩

/-- Nor does a delegation. -/
theorem ctrlPd_next (src dst : Word) (st dt : ObjSubtype) (r : SysCtrlPd) (m : Making) :
    (ctrlPd src dst st dt r).2 ≠ .make m := by
  unfold ctrlPd delegate
  dsimp only
  repeat' split
  all_goals nofun

/-- **What a hypercall asks for is fit**, given what its capabilities are worth. -/
theorem handle_fit (inv : s.Inv) {e space : Word} {call : Call} {caps : List Capability}
    (held : ∀ c ∈ caps, s.Held c) {m : Making} (made : (s.handle e space call caps).2 = .make m) : s.Fit m := by
  unfold handle at made
  split at made
  case h_1 _ cpt =>
      obtain ⟨r, finish⟩ := call_next s e cpt Perm.ptCall
      rw [finish] at made
      cases made
  case h_2 _ cpt =>
      obtain ⟨r, finish⟩ := call_next s e cpt Perm.ptEvent
      rw [finish] at made
      cases made
  case h_3 op sel _ cpd =>
      split at made
      · rename_i valid
        exact (held cpd List.mem_cons_self).createPd inv valid made
      · cases made
  case h_4 =>
      split at made
      · obtain rfl := Next.make.inj made
        exact .plain rfl nofun nofun
      · cases made
  case h_5 =>
      split at made
      · split at made
        · split at made
          · cases made
          · obtain rfl := Next.make.inj made
            exact .plain rfl nofun nofun
        · cases made
      · cases made
  case h_6 cpd cec =>
      split at made
      · split at made
        · rename_i valid
          split at made
          · cases made
          · rename_i local_
            obtain rfl := Next.make.inj made
            refine .plain rfl nofun fun ec same => ?_
            obtain rfl := New.pt.inj same
            obtain ⟨k, a, evt, cpu, q, object, granted, subtype⟩ :=
              (held cec (List.mem_cons_of_mem _ List.mem_cons_self)).ec valid
            rw [subtype, not_not] at local_
            obtain rfl : k = .localThread := by
              cases k <;> first | rfl | exact absurd local_ (by decide)
            exact ⟨a, evt, cpu, q, object, granted⟩
        · cases made
      · cases made
  case h_7 =>
      split at made
      · obtain rfl := Next.make.inj made
        exact .plain rfl nofun nofun
      · cases made
  case h_8 =>
      split at made
      · dsimp only at made
        split at made
        · exact (ctrlPd_next _ _ _ _ _ _ made).elim
        · cases made
      · cases made
  all_goals
    repeat' split at made
    all_goals cases made

end Handle

/-! ## What a step can do -/

/-- A step of the thread `e`: it changes nothing that others see, or does one of five things that they do see. -/
inductive Effect (cfg : Config) (e : Word) (s : System) : System → Prop
  | quiet (q : Place) (status : Word → Status) (owns : q.owns = none ∨ q.owns = (s.place e).owns)
      (settled : s.Inv → s.Settled q) : Effect cfg e s { s with place := Function.update s.place e q, status }
  | appear (m : Making) (o : Word) (k : Kobject) (at_ : s.place e = .create m) (free : s.object o = none)
      (real : o ≠ 0#64 ∧ Capability.Aligned o) (built : s.construct cfg m = some k) :
      Effect cfg e s ({ s with
        object := Function.update s.object o (some k)
        caps := Function.update s.caps o .empty }.move e (.insert m o))
  | enroll (m : Making) (o : Word) (at_ : s.place e = .insert m o) :
      Effect cfg e s ({ s with
        caps := Function.update s.caps m.space ((s.caps m.space).store m.sel (.ofObject o m.prm))
        granted := Function.update s.granted o (some m.prm)
        creator := Function.update s.creator o (some m.pd) }.move e (.publish m o))
  | point (m : Making) (o : Word) (at_ : s.place e = .publish m o) :
      Effect cfg e s ((s.publish m o).answer e .success)
  | vanish (m : Making) (o : Word) (at_ : s.place e = .destroy m o) :
      Effect cfg e s ({ s with object := Function.update s.object o none }.answer e (s.status e))
  | put (d : Delegation) (cap : Capability) (at_ : s.place e = .write d cap) :
      Effect cfg e s ({ s with
        caps := Function.update s.caps d.dst
          ((s.caps d.dst).store d.dSel (.ofObject cap.obj (cap.prm &&& d.pmm))) }.move e
        (.read { d with sSel := d.sSel + 1#64, dSel := d.dSel + 1#64, k := d.k - 1 }))

section Step

variable {cfg : Config} {e : Word} {s s' : System}

theorem Effect.answer (r : Status) : Effect cfg e s (s.answer e r) :=
  .quiet .idle _ (Or.inl rfl) fun _ => trivial

theorem Effect.move {q : Place} (owns : q.owns = none) (settled : s.Inv → s.Settled q) : Effect cfg e s (s.move e q) :=
  .quiet q s.status (Or.inl owns) settled

omit cfg e s s' in
theorem insert_success {m caps : Caps} {sel : Word} {cap : Capability} {enough : Bool}
    (inserted : m.insert sel cap enough = (.success, caps)) : caps = m.store sel cap := by
  unfold Caps.insert at inserted
  split at inserted
  · cases inserted
  · split at inserted
    · exact (Prod.mk.inj inserted).2.symm
    · cases inserted

/-- A hypercall goes on with what its capabilities allow. -/
theorem Effect.go {space : Word} {call : Call} {rest : List Word} {caps : List Capability}
    (at_ : s.place e = .lookup space call rest caps) : Effect cfg e s (s.go e (s.handle e space call caps).2) := by
  cases next : (s.handle e space call caps).2 with
  | finish r => exact .answer r
  | make m =>
      refine .move rfl fun inv => handle_fit inv (fun c member => ?_) next
      have settled := inv.place e
      rw [at_] at settled
      exact settled c member
  | delegate d => exact .move rfl fun _ => trivial

/-- **What a step can do** -/
theorem step_cases {i : Input} (run : s.step cfg (e, i) = some s') : Effect cfg e s s' := by
  unfold step at run
  dsimp only at run
  split at run
  case h_1 at_ =>
      split at run
      · split at run
        · obtain rfl := Option.some.inj run
          exact .answer _
        · obtain rfl := Option.some.inj run
          exact .move rfl fun _ c none_ => nomatch none_
      · cases run
  case h_2 space call sel rest caps at_ =>
      obtain rfl := Option.some.inj run
      refine .move rfl fun inv c member => ?_
      rcases List.mem_append.mp member with before | new
      · have settled := inv.place e
        rw [at_] at settled
        exact settled c before
      · obtain rfl := List.mem_singleton.mp new
        exact inv.caps _ _
  case h_3 at_ =>
      obtain rfl := Option.some.inj run
      exact .go at_
  case h_4 m o at_ =>
      split at run
      · cases run
      · rename_i usable
        split at run
        · obtain rfl := Option.some.inj run
          exact .answer _
        · rename_i k built
          obtain rfl := Option.some.inj run
          simp only [not_or, not_not, Bool.not_eq_true, Option.isSome_eq_false_iff, Option.isNone_iff_eq_none] at usable
          exact .appear m o k at_ usable.2.2 ⟨usable.1, usable.2.1⟩ built
  case h_5 =>
      obtain rfl := Option.some.inj run
      exact .answer _
  case h_6 m o enough at_ =>
      cases inserted : (s.caps m.space).insert m.sel (.ofObject o m.prm) enough with
      | mk r caps =>
          simp only [inserted] at run
          split at run
          · rename_i success
            subst success
            obtain rfl := insert_success inserted
            obtain rfl := Option.some.inj run
            exact .enroll m o at_
          · obtain rfl := Option.some.inj run
            refine .quiet (.destroy m o) _ (Or.inr (by rw [at_]; rfl)) fun inv => ?_
            have settled := inv.place e
            rw [at_] at settled
            obtain ⟨-, new, k, object, -⟩ := settled
            exact ⟨new, by rw [object]; rfl⟩
  case h_7 m o a at_ =>
      obtain rfl := Option.some.inj run
      cases a with
      | true => exact .point m o at_
      | false => exact .answer _
  case h_8 m o at_ =>
      obtain rfl := Option.some.inj run
      exact .vanish m o at_
  case h_9 d at_ =>
      split at run
      · obtain rfl := Option.some.inj run
        exact .answer _
      · obtain rfl := Option.some.inj run
        exact .move rfl fun inv => inv.caps _ _
  case h_10 d cap enough at_ =>
      cases enough with
      | false =>
          obtain rfl := Option.some.inj run
          exact .answer _
      | true =>
          obtain rfl := Option.some.inj run
          exact .put d cap at_
  case h_11 => cases run

end Step

/-! ## What is constructed -/

/-- The class of the object that a factory makes -/
def Makes (k : Kobject) : New → Prop
  | .pd => k = .pd 0#64 0#64 0#64
  | .space j => k = .space j
  | .ec j evt cpu => ∃ space, k = .ec j space evt cpu
  | .sc => k = .sc
  | .pt ec => k = .pt ec
  | .sm id => k = .sm id

section Construct

variable {cfg : Config} {s : System} {m : Making} {k : Kobject}

theorem construct_makes (built : s.construct cfg m = some k) : Makes k m.new := by
  unfold construct at built
  split at built
  case h_2 j new =>
      split at built
      · cases built
      · rw [new]
        exact (Option.some.inj built).symm
  case h_3 j evt cpu new =>
      dsimp only at built
      split at built
      · cases built
      · rw [new]
        exact ⟨_, (Option.some.inj built).symm⟩
  all_goals
    rename_i new
    rw [new]
    exact (Option.some.inj built).symm

theorem Makes.defined {new : New} (makes : Makes k new) : k.defined = new.defined := by
  cases new with
  | ec =>
      obtain ⟨_, rfl⟩ := makes
      rfl
  | pd | space | sc | pt | sm =>
      cases makes
      rfl

theorem Makes.pd {new : New} (makes : Makes k new) (is : k.cls = .pd) : new = .pd := by
  cases new with
  | pd => rfl
  | ec =>
      obtain ⟨_, rfl⟩ := makes
      cases is
  | space | sc | pt | sm =>
      cases makes
      cases is

theorem Makes.portal {new : New} {ec : Word} (makes : Makes (.pt ec) new) : new = .pt ec := by
  cases new with
  | ec => exact absurd makes.choose_spec nofun
  | pt =>
      cases makes
      rfl
  | pd | space | sc | sm => cases makes

end Construct

/-! ## The invariant stays -/

/-- The same object; a PD may have got a space. -/
def Alike (k k' : Kobject) : Prop := k' = k ∨ k.cls = .pd ∧ k'.cls = .pd

theorem Alike.cls {k k' : Kobject} (alike : Alike k k') : k'.cls = k.cls := by
  rcases alike with rfl | ⟨is, is'⟩
  · rfl
  · rw [is, is']

theorem Alike.defined {k k' : Kobject} (alike : Alike k k') : k'.defined = k.defined := by
  rcases alike with rfl | ⟨is, is'⟩
  · rfl
  · cases k <;> cases is
    cases k' <;> cases is'
    rfl

theorem Alike.eq {k k' : Kobject} (alike : Alike k k') (other : k.cls ≠ .pd) : k' = k :=
  alike.resolve_right fun both => other both.1

theorem Alike.trans {k k' k'' : Kobject} (first : Alike k k') (second : Alike k' k'') : Alike k k'' := by
  rcases second with rfl | ⟨is, is'⟩
  · exact first
  · exact Or.inr ⟨first.cls ▸ is, is'⟩

/-- Objects with a capability stay, and so do their permissions. -/
structure Grows (s s' : System) : Prop where
  granted : ∀ o p, s.granted o = some p → s'.granted o = some p
  object : ∀ o p k, s.granted o = some p → s.object o = some k → ∃ k', s'.object o = some k' ∧ Alike k k'

theorem Grows.refl (s : System) : s.Grows s := ⟨fun _ _ h => h, fun _ _ k _ h => ⟨k, h, Or.inl rfl⟩⟩

theorem Grows.trans {s s' s'' : System} (first : s.Grows s') (second : s'.Grows s'') : s.Grows s'' where
  granted o p h := second.granted o p (first.granted o p h)
  object o p k granted object := by
    obtain ⟨k', object', alike⟩ := first.object o p k granted object
    obtain ⟨k'', object'', alike'⟩ := second.object o p k' (first.granted o p granted) object'
    exact ⟨k'', object'', alike.trans alike'⟩

section Grows

variable {s s' : System} (grows : s.Grows s')
include grows

theorem Held.stays {c : Capability} (held : s.Held c) : s'.Held c := by
  rcases held with null | ⟨k, p, object, granted, le, any⟩
  · exact Or.inl null
  · obtain ⟨k', object', -⟩ := grows.object _ p k granted object
    exact Or.inr ⟨k', p, object', grows.granted _ p granted, le, any⟩

theorem Local.stays {ec : Word} (local_ : s.Local ec) : s'.Local ec := by
  obtain ⟨space, evt, cpu, p, object, granted⟩ := local_
  obtain ⟨k', object', alike⟩ := grows.object _ p _ granted object
  obtain rfl := alike.eq nofun
  exact ⟨space, evt, cpu, p, object', grows.granted _ p granted⟩

theorem Fit.stays {m : Making} (fit : s.Fit m) : s'.Fit m := by
  refine ⟨fit.any, fit.narrow, fit.defined, fun is => ?_, fun ec is => (fit.portal ec is).stays grows⟩
  obtain ⟨p, granted, le⟩ := fit.pd is
  exact ⟨p, grows.granted _ p granted, le⟩

/-- A thread whose object nobody touches -/
theorem Settled.keep {p : Place} (settled : s.Settled p) (apart : ∀ o, p.owns = some o →
    s'.granted o = s.granted o ∧ ∀ k, s.object o = some k → ∃ k', s'.object o = some k' ∧ Alike k k') :
    s'.Settled p := by
  cases p with
  | idle | publish | read => trivial
  | lookup space call rest caps => exact fun c member => Held.stays grows (settled c member)
  | create m => exact Fit.stays grows settled
  | write d cap => exact Held.stays grows settled
  | insert m o =>
      obtain ⟨fit, new, k, object, defined, pd⟩ := settled
      obtain ⟨same, stays⟩ := apart o rfl
      obtain ⟨k', object', alike⟩ := stays k object
      exact ⟨fit.stays grows, same.trans new, k', object', alike.defined.trans defined, fun is => pd (alike.cls ▸ is)⟩
  | destroy m o =>
      obtain ⟨new, some_⟩ := settled
      obtain ⟨same, stays⟩ := apart o rfl
      obtain ⟨k, object⟩ := Option.isSome_iff_exists.mp some_
      obtain ⟨k', object', -⟩ := stays k object
      exact ⟨same.trans new, by rw [object']; rfl⟩

end Grows

/-- A step of `e` to the place `q`, as far as the invariant is concerned -/
structure Change (e : Word) (q : Place) (s s' : System) : Prop where
  place : s'.place = Function.update s.place e q
  grows : s.Grows s'
  settled : s'.Settled q
  owner : ∀ o, q.owns = some o → ∀ e', e' ≠ e → (s.place e').owns ≠ some o
  apart : ∀ e', e' ≠ e → ∀ o, (s.place e').owns = some o →
    s'.granted o = s.granted o ∧ ∀ k, s.object o = some k → ∃ k', s'.object o = some k' ∧ Alike k k'
  object : ∀ o k, s'.object o = some k → (∃ k', s.object o = some k' ∧ Alike k' k) ∨
    o ≠ 0#64 ∧ Capability.Aligned o ∧ ∀ ec, k = .pt ec → s.Local ec
  granted : ∀ o p, s'.granted o = some p → s.granted o = some p ∧ s'.creator o = s.creator o ∨
    ∃ k, s'.object o = some k ∧ p ≠ 0#32 ∧ p.Narrow ∧ p.Le k.defined ∧ ∀ pd, k.cls = .pd → s'.creator o = some pd →
      ∃ q, s.granted pd = some q ∧ p.Le q
  caps : ∀ a key, s'.Held (s'.caps a key)

theorem Inv.change {s s' : System} (inv : s.Inv) {e : Word} {q : Place} (change : Change e q s s') : s'.Inv := by
  have place := fun e' => congrFun change.place e'
  refine ⟨fun o k object => ?_, fun o p granted => ?_, fun o p pd granted creator => ?_, fun o ec object => ?_, change.caps,
    fun e' => ?_, fun e1 e2 o owns1 owns2 => ?_⟩
  · rcases change.object o k object with ⟨k', before, -⟩ | ⟨ne, aligned, -⟩
    · exact inv.real o k' before
    · exact ⟨ne, aligned⟩
  · rcases change.granted o p granted with ⟨before, -⟩ | ⟨k, object, any, narrow, le, -⟩
    · obtain ⟨k, object, any, narrow, le⟩ := inv.granted o p before
      obtain ⟨k', object', alike⟩ := change.grows.object o p k before object
      exact ⟨k', object', any, narrow, alike.defined ▸ le⟩
    · exact ⟨k, object, any, narrow, le⟩
  · rintro ⟨k, object, is⟩
    rcases change.granted o p granted with ⟨before, same⟩ | ⟨k', object', -, -, -, bound⟩
    · obtain ⟨k', object', -⟩ := inv.granted o p before
      obtain ⟨k'', object'', alike⟩ := change.grows.object o p k' before object'
      obtain rfl := Option.some.inj (object.symm.trans object'')
      obtain ⟨q, granted', le⟩ := inv.creator o p pd before (same ▸ creator) ⟨k', object', alike.cls ▸ is⟩
      exact ⟨q, change.grows.granted pd q granted', le⟩
    · obtain rfl := Option.some.inj (object.symm.trans object')
      obtain ⟨q, granted', le⟩ := bound pd is creator
      exact ⟨q, change.grows.granted pd q granted', le⟩
  · rcases change.object o _ object with ⟨k', before, alike⟩ | ⟨-, -, portal⟩
    · have same : k' = .pt ec := by
        rcases alike with same | ⟨-, is⟩
        · exact same.symm
        · cases is
      subst same
      exact (inv.portal o ec before).stays change.grows
    · exact (portal ec rfl).stays change.grows
  · rw [place]
    by_cases here : e' = e
    · rw [here, Function.update_self]
      exact change.settled
    · rw [Function.update_of_ne here]
      exact (inv.place e').keep change.grows (change.apart e' here)
  · rw [place] at owns1 owns2
    by_cases first : e1 = e
    · by_cases second : e2 = e
      · rw [first, second]
      · rw [first, Function.update_self] at owns1
        rw [Function.update_of_ne second] at owns2
        exact absurd owns2 (change.owner o owns1 e2 second)
    · rw [Function.update_of_ne first] at owns1
      by_cases second : e2 = e
      · rw [second, Function.update_self] at owns2
        exact absurd owns1 (change.owner o owns2 e1 first)
      · rw [Function.update_of_ne second] at owns2
        exact inv.unique e1 e2 o owns1 owns2

/-- An object that belongs to a thread is there, and has no capability yet. -/
theorem Inv.owned {s : System} (inv : s.Inv) {e o : Word} (owns : (s.place e).owns = some o) :
    s.granted o = none ∧ (s.object o).isSome := by
  have settled := inv.place e
  cases at_ : s.place e with
  | insert m o' =>
      rw [at_] at owns settled
      obtain rfl := Option.some.inj owns
      obtain ⟨-, new, k, object, -⟩ := settled
      exact ⟨new, by rw [object]; rfl⟩
  | destroy m o' =>
      rw [at_] at owns settled
      obtain rfl := Option.some.inj owns
      exact settled
  | idle | lookup | create | publish | read | write =>
      rw [at_] at owns
      cases owns

section Changes

variable {cfg : Config} {e : Word} {s s' : System} (inv : s.Inv)
include inv

theorem owner_of {q : Place} (owns : q.owns = none ∨ q.owns = (s.place e).owns) (o : Word) (is : q.owns = some o)
    (e' : Word) (other : e' ≠ e) : (s.place e').owns ≠ some o := fun theirs => by
  rcases owns with none_ | same
  · rw [none_] at is
    cases is
  · exact other (inv.unique e' e o theirs (same ▸ is))

/-- A step that leaves the objects alone -/
theorem change_plain {q : Place} (place : s'.place = Function.update s.place e q) (object : s'.object = s.object)
    (granted : s'.granted = s.granted) (creator : s'.creator = s.creator)
    (owns : q.owns = none ∨ q.owns = (s.place e).owns) (settled : s.Settled q)
    (caps : ∀ a key, s.Held (s'.caps a key)) : Change e q s s' := by
  have alike : ∀ o k, s.object o = some k → ∃ k', s'.object o = some k' ∧ Alike k k' := fun o k h =>
    ⟨k, by rw [object]; exact h, Or.inl rfl⟩
  have grows : s.Grows s' := ⟨fun o p h => by rw [granted]; exact h, fun o p k _ h => alike o k h⟩
  refine ⟨place, grows, settled.keep grows fun o _ => ⟨congrFun granted o, alike o⟩, owner_of inv owns,
    fun e' _ o _ => ⟨congrFun granted o, alike o⟩, fun o k h => Or.inl ⟨k, by rw [← object]; exact h, Or.inl rfl⟩,
    fun o p h => Or.inl ⟨by rw [← granted]; exact h, congrFun creator o⟩, fun a key => (caps a key).stays grows⟩

/-- A new object appears. -/
theorem change_appear {m : Making} {o : Word} {k : Kobject} (at_ : s.place e = .create m) (free : s.object o = none)
    (real : o ≠ 0#64 ∧ Capability.Aligned o) (built : s.construct cfg m = some k) :
    Change e (.insert m o) s ({ s with
      object := Function.update s.object o (some k)
      caps := Function.update s.caps o .empty }.move e (.insert m o)) := by
  have fit : s.Fit m := by
    have settled := inv.place e
    rw [at_] at settled
    exact settled
  have makes := construct_makes built
  have new : s.granted o = none := by
    cases granted : s.granted o with
    | none => rfl
    | some p =>
        obtain ⟨k, object, -⟩ := inv.granted o p granted
        rw [free] at object
        cases object
  have others : ∀ o' k', s.object o' = some k' → Function.update s.object o (some k) o' = some k' := fun o' k' object => by
    rw [Function.update_of_ne]
    · exact object
    · rintro rfl
      rw [free] at object
      cases object
  have grows : s.Grows ({ s with
      object := Function.update s.object o (some k)
      caps := Function.update s.caps o .empty }.move e (.insert m o)) :=
    ⟨fun _ _ h => h, fun o' p k' _ object => ⟨k', others o' k' object, Or.inl rfl⟩⟩
  refine ⟨rfl, grows, ⟨fit.stays grows, new, k, Function.update_self .., makes.defined, makes.pd⟩,
    fun o' is e' _ theirs => ?_, fun e' _ o' _ => ⟨rfl, fun k' object => ⟨k', others o' k' object, Or.inl rfl⟩⟩,
    fun o' k' object => ?_, fun o' p h => Or.inl ⟨h, rfl⟩, fun a key => ?_⟩
  · obtain rfl := Option.some.inj is
    have there := (inv.owned theirs).2
    rw [free] at there
    cases there
  · have object : Function.update s.object o (some k) o' = some k' := object
    by_cases here : o' = o
    · subst here
      rw [Function.update_self] at object
      obtain rfl := Option.some.inj object
      refine Or.inr ⟨real.1, real.2, fun ec is => ?_⟩
      subst is
      exact fit.portal ec makes.portal
    · rw [Function.update_of_ne here] at object
      exact Or.inl ⟨k', object, Or.inl rfl⟩
  · by_cases here : a = o
    · subst here
      refine Or.inl ?_
      show Function.update s.caps a Caps.empty a key = Capability.null
      rw [Function.update_self]
      rfl
    · have same : Function.update s.caps o Caps.empty a key = s.caps a key := by rw [Function.update_of_ne here]
      have held := (inv.caps a key).stays grows
      rw [← same] at held
      exact held

/-- A new object gets its first capability. -/
theorem change_enroll {m : Making} {o : Word} (at_ : s.place e = .insert m o) :
    Change e (.publish m o) s ({ s with
      caps := Function.update s.caps m.space ((s.caps m.space).store m.sel (.ofObject o m.prm))
      granted := Function.update s.granted o (some m.prm)
      creator := Function.update s.creator o (some m.pd) }.move e (.publish m o)) := by
  have owns : (s.place e).owns = some o := by rw [at_]; rfl
  have settled := inv.place e
  rw [at_] at settled
  obtain ⟨fit, new, k, object, defined, pd⟩ := settled
  have others : ∀ o' p, s.granted o' = some p → o' ≠ o := by
    rintro o' p granted rfl
    rw [new] at granted
    cases granted
  have grows : s.Grows ({ s with
      caps := Function.update s.caps m.space ((s.caps m.space).store m.sel (.ofObject o m.prm))
      granted := Function.update s.granted o (some m.prm)
      creator := Function.update s.creator o (some m.pd) }.move e (.publish m o)) :=
    ⟨fun o' p granted => (Function.update_of_ne (others o' p granted) ..).trans granted,
      fun o' p k' _ object => ⟨k', object, Or.inl rfl⟩⟩
  refine ⟨rfl, grows, trivial, nofun, fun e' other o' theirs => ⟨?_, fun k' object => ⟨k', object, Or.inl rfl⟩⟩,
    fun o' k' object => Or.inl ⟨k', object, Or.inl rfl⟩, fun o' p granted => ?_, fun a key => ?_⟩
  · refine Function.update_of_ne ?_ ..
    rintro rfl
    exact other (inv.unique e' e o' theirs owns)
  · have granted : Function.update s.granted o (some m.prm) o' = some p := granted
    by_cases here : o' = o
    · subst here
      rw [Function.update_self] at granted
      obtain rfl := Option.some.inj granted
      refine Or.inr ⟨k, object, fit.any, fit.narrow, defined ▸ fit.defined, fun q is creator => ?_⟩
      have creator : Function.update s.creator o' (some m.pd) o' = some q := creator
      rw [Function.update_self] at creator
      obtain rfl := Option.some.inj creator
      exact fit.pd (pd is)
    · rw [Function.update_of_ne here] at granted
      exact Or.inl ⟨granted, Function.update_of_ne here ..⟩
  · refine held_store (fun a key => (inv.caps a key).stays grows) ?_ m.space m.sel a key
    exact held_ofObject (inv.real o k object).2 fit.narrow object (Function.update_self ..) (Perm.Le.refl _)

omit inv in
/-- A PD gets a space. -/
theorem publish_alike (s : System) (m : Making) (o : Word) :
    ∃ object, s.publish m o = { s with object } ∧ (∀ a k, s.object a = some k → ∃ k', object a = some k' ∧ Alike k k') ∧
      ∀ a k, object a = some k → ∃ k', s.object a = some k' ∧ Alike k' k := by
  have pointer : ∀ b h p b' h' p', s.object m.pd = some (.pd b h p) →
      (∀ a k, s.object a = some k →
        ∃ k', Function.update s.object m.pd (some (.pd b' h' p')) a = some k' ∧ Alike k k') ∧
      ∀ a k, Function.update s.object m.pd (some (.pd b' h' p')) a = some k →
        ∃ k', s.object a = some k' ∧ Alike k' k := by
    intro b h p b' h' p' before
    refine ⟨fun a k object => ?_, fun a k object => ?_⟩
    · by_cases here : a = m.pd
      · subst here
        obtain rfl := Option.some.inj (before.symm.trans object)
        exact ⟨_, Function.update_self .., Or.inr ⟨rfl, rfl⟩⟩
      · exact ⟨k, (Function.update_of_ne here ..).trans object, Or.inl rfl⟩
    · by_cases here : a = m.pd
      · subst here
        rw [Function.update_self] at object
        obtain rfl := Option.some.inj object
        exact ⟨_, before, Or.inr ⟨rfl, rfl⟩⟩
      · rw [Function.update_of_ne here] at object
        exact ⟨k, object, Or.inl rfl⟩
  unfold publish
  split
  · rename_i b h p _ before
    exact ⟨_, rfl, pointer _ _ _ _ _ _ before⟩
  · rename_i b h p _ before
    exact ⟨_, rfl, pointer _ _ _ _ _ _ before⟩
  · rename_i b h p _ before
    exact ⟨_, rfl, pointer _ _ _ _ _ _ before⟩
  · exact ⟨s.object, rfl, fun a k object => ⟨k, object, Or.inl rfl⟩, fun a k object => ⟨k, object, Or.inl rfl⟩⟩

theorem change_point (m : Making) (o : Word) : Change e .idle s ((s.publish m o).answer e .success) := by
  obtain ⟨object, same, stays, from_⟩ := publish_alike s m o
  rw [same]
  have grows : s.Grows ({ s with object }.answer e .success) := ⟨fun _ _ h => h, fun a p k _ h => stays a k h⟩
  exact ⟨rfl, grows, trivial, nofun, fun e' _ a _ => ⟨rfl, fun k h => stays a k h⟩, fun a k h => Or.inl (from_ a k h),
    fun a p h => Or.inl ⟨h, rfl⟩, fun a key => (inv.caps a key).stays grows⟩

/-- A new object without a capability vanishes. -/
theorem change_vanish {m : Making} {o : Word} (at_ : s.place e = .destroy m o) :
    Change e .idle s ({ s with object := Function.update s.object o none }.answer e (s.status e)) := by
  have owns : (s.place e).owns = some o := by rw [at_]; rfl
  have new := (inv.owned owns).1
  have others : ∀ o', o' ≠ o → ∀ k, s.object o' = some k → ∃ k', Function.update s.object o none o' = some k' ∧ Alike k k' :=
    fun o' other k object => ⟨k, (Function.update_of_ne other ..).trans object, Or.inl rfl⟩
  have grows : s.Grows ({ s with object := Function.update s.object o none }.answer e (s.status e)) := by
    refine ⟨fun _ _ h => h, fun o' p k granted object => others o' ?_ k object⟩
    rintro rfl
    rw [new] at granted
    cases granted
  refine ⟨rfl, grows, trivial, nofun, fun e' other o' theirs => ⟨rfl, fun k object => others o' ?_ k object⟩,
    fun o' k object => ?_, fun o' p h => Or.inl ⟨h, rfl⟩, fun a key => (inv.caps a key).stays grows⟩
  · rintro rfl
    exact other (inv.unique e' e o' theirs owns)
  · have object : Function.update s.object o none o' = some k := object
    by_cases here : o' = o
    · rw [here, Function.update_self] at object
      cases object
    · rw [Function.update_of_ne here] at object
      exact Or.inl ⟨k, object, Or.inl rfl⟩

/-- **A step keeps the invariant.** -/
theorem Inv.step (effect : Effect cfg e s s') : s'.Inv ∧ s.Grows s' := by
  have done : ∃ q, Change e q s s' := by
    cases effect with
    | quiet q status owns settled => exact ⟨q, change_plain inv rfl rfl rfl rfl owns (settled inv) inv.caps⟩
    | appear m o k at_ free real built => exact ⟨_, change_appear inv at_ free real built⟩
    | enroll m o at_ => exact ⟨_, change_enroll inv at_⟩
    | point m o at_ => exact ⟨_, change_point inv m o⟩
    | vanish m o at_ => exact ⟨_, change_vanish inv at_⟩
    | put d cap at_ =>
        have held := inv.place e
        rw [at_] at held
        exact ⟨_, change_plain inv rfl rfl rfl rfl (Or.inl rfl) trivial
          (held_store inv.caps (Held.masked held d.pmm) d.dst d.dSel)⟩
  obtain ⟨q, change⟩ := done
  exact ⟨inv.change change, change.grows⟩

end Changes

/-! ## Whole runs -/

/-- What the boot code leaves behind, before the first hypercall: objects and capabilities for them, each with
permissions of its class.  No PD has been made with a capability yet. -/
structure Booted (s : System) : Prop where
  real : ∀ o k, s.object o = some k → o ≠ 0#64 ∧ Capability.Aligned o
  granted : ∀ o p, s.granted o = some p → ∃ k, s.object o = some k ∧ p ≠ 0#32 ∧ p.Narrow ∧ p.Le k.defined
  creator : ∀ o, s.creator o = none
  portal : ∀ o ec, s.object o ≠ some (.pt ec)
  caps : ∀ a key, s.Held (s.caps a key)
  idle : ∀ e, s.place e = .idle

theorem Booted.inv {s : System} (booted : s.Booted) : s.Inv where
  real := booted.real
  granted := booted.granted
  creator o p pd _ creator := by
    rw [booted.creator o] at creator
    cases creator
  portal o ec is := absurd is (booted.portal o ec)
  caps := booted.caps
  place e := by
    rw [booted.idle e]
    trivial
  unique e e' o owns := by
    rw [booted.idle e] at owns
    cases owns

/-- **Every run** keeps the invariant, and every permission that was granted. -/
theorem Inv.runs {cfg : Config} {s s' : System} (inv : s.Inv) {inputs : List (Word × Input)}
    (run : runs (fun i s => s.step cfg i) s inputs = some s') : s'.Inv ∧ s.Grows s' := by
  have keeps : ∀ (u : System) (i : Word × Input) (u' : System), u.Inv ∧ s.Grows u → u.step cfg i = some u' →
      u'.Inv ∧ s.Grows u' := by
    rintro u ⟨e, i⟩ u' ⟨invU, grows⟩ step
    obtain ⟨invU', grows'⟩ := invU.step (step_cases step)
    exact ⟨invU', grows.trans grows'⟩
  exact runs_keeps keeps ⟨inv, .refl s⟩ run

end System

/-! ## A booted system -/

/-- The static spaces, the console's semaphore, that of an interrupt, and what `create_root` makes, with the permissions
of their capabilities -/
def bootObjects : List (Word × Kobject × Perm) :=
  [(0x1000#64, .space .obj, Perm.spTake), (0x1100#64, .space .hst, Perm.spTake), (0x1200#64, .space .pio, Perm.spTake),
    (0x1300#64, .space .msr, Perm.spTake), (0x1400#64, .sm noId, Perm.definedSm), (0x1420#64, .sm 0#32, Perm.definedInt),
    (0x2000#64, .pd 0x2100#64 0x2200#64 0x2300#64, Perm.definedPd), (0x2100#64, .space .obj, Perm.definedObj),
    (0x2200#64, .space .hst, Perm.definedHst), (0x2300#64, .space .pio, Perm.definedPio),
    (0x3000#64, .ec .globalThread 0x2100#64 0#64 0, Perm.definedEc), (0x3100#64, .sc, Perm.definedSc)]

/-- Where the capabilities are: an object space, a distance from the last selector, an object and permissions -/
def bootCaps : List (Word × Nat × Word × Perm) :=
  [(0x1000#64, 1, 0x1400#64, Perm.definedSm), (0x1000#64, 2, 0x1000#64, Perm.spTake),
    (0x1000#64, 3, 0x1100#64, Perm.spTake), (0x1000#64, 4, 0x1200#64, Perm.spTake),
    (0x1000#64, 5, 0x1300#64, Perm.spTake), (0x1000#64, 6, 0x2100#64, Perm.definedObj),
    (0x1000#64, 7, 0x2200#64, Perm.definedHst), (0x1000#64, 8, 0x2300#64, Perm.definedPio),
    (0x1000#64, objNum - 2 ^ 16, 0x1420#64, Perm.definedInt), (0x2100#64, 1, 0x1000#64, Perm.spTake),
    (0x2100#64, 2, 0x2100#64, Perm.definedObj), (0x2100#64, 3, 0x2000#64, Perm.definedPd),
    (0x2100#64, 4, 0x3000#64, Perm.definedEc), (0x2100#64, 5, 0x3100#64, Perm.definedSc)]

def bootObject (o : Word) : Option (Word × Kobject × Perm) := bootObjects.find? fun x => x.1 = o

def bootStore : List (Word × Nat × Word × Perm) → Word → Caps
  | [], _ => .empty
  | x :: rest, a =>
      let caps := bootStore rest
      Function.update caps x.1
        ((caps x.1).store (BitVec.ofNat 64 (objNum - x.2.1)) (.ofObject x.2.2.1 x.2.2.2)) a

def boot : System where
  object o := (bootObject o).map fun x => x.2.1
  junk _ := (.pd, .none)
  caps := bootStore bootCaps
  root := 0x2000#64
  place _ := .idle
  status _ := .success
  granted o := (bootObject o).map fun x => x.2.2
  creator _ := none

namespace System

theorem bootObject_spec {o : Word} {x : Word × Kobject × Perm} (is : bootObject o = some x) : x ∈ bootObjects ∧ x.1 = o := by
  unfold bootObject at is
  exact ⟨List.mem_of_find?_eq_some is, by simpa using List.find?_some is⟩

/-- What is stored at boot -/
theorem boot_held (caps : List (Word × Nat × Word × Perm)) (good : ∀ x ∈ caps, Capability.Aligned x.2.2.1 ∧
      x.2.2.2.Narrow ∧ (bootObject x.2.2.1).any (fun y => decide (x.2.2.2.Le y.2.2)) = true) (a : Word) (key : Fin objNum) :
    boot.Held (bootStore caps a key) := by
  induction caps generalizing a key with
  | nil => exact Or.inl rfl
  | cons x rest ih =>
      obtain ⟨aligned, narrow, named⟩ := good x List.mem_cons_self
      refine held_store (ih fun y member => good y (List.mem_cons_of_mem _ member)) ?_ _ _ a key
      cases is : bootObject x.2.2.1 with
      | none =>
          rw [is] at named
          cases named
      | some y =>
          rw [is] at named
          have object : boot.object x.2.2.1 = some y.2.1 := by
            show (bootObject x.2.2.1).map _ = _
            rw [is]
            rfl
          have granted : boot.granted x.2.2.1 = some y.2.2 := by
            show (bootObject x.2.2.1).map _ = _
            rw [is]
            rfl
          exact held_ofObject aligned narrow object granted (of_decide_eq_true named)

theorem boot_booted : boot.Booted := by
  refine ⟨fun o k object => ?_, fun o p granted => ?_, fun _ => rfl, fun o ec object => ?_,
    boot_held bootCaps (by decide), fun _ => rfl⟩
  · obtain ⟨x, is, -⟩ := Option.map_eq_some_iff.mp object
    obtain ⟨member, rfl⟩ := bootObject_spec is
    exact (by decide : ∀ x ∈ bootObjects, x.1 ≠ 0#64 ∧ Capability.Aligned x.1) x member
  · obtain ⟨x, is, rfl⟩ := Option.map_eq_some_iff.mp granted
    obtain ⟨member, rfl⟩ := bootObject_spec is
    refine ⟨x.2.1, congrArg (Option.map _) is, ?_⟩
    exact (by decide : ∀ x ∈ bootObjects, x.2.2 ≠ 0#32 ∧ x.2.2.Narrow ∧ x.2.2.Le x.2.1.defined) x member
  · obtain ⟨x, is, portal⟩ := Option.map_eq_some_iff.mp object
    have other := (by decide : ∀ x ∈ bootObjects, x.2.1.cls ≠ .pt) x (bootObject_spec is).1
    rw [portal] at other
    exact other rfl

end System

end Nova.Kernel.Syscall
