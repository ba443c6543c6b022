/-
# Nova.Kernel.Confinement — authority is confined

What the invariant of `Nova.Kernel.Authority` means for runs of hypercalls.  A
capability carries no permission that the first capability for its object did not
carry, and for a PD none that the capability of its creator did not carry.  A
delegation from a space to itself only stores what is below a capability that the
space already has, whatever other threads do meanwhile with other spaces:
`self_delegation`.  `authority_confined` puts this together.
-/
import Nova.Kernel.Downcast

namespace Nova.Kernel.Syscall

open Nova.Theory.Words
open Nova.Theory.Runs

set_option autoImplicit false

/-- `c` is null or has the object, and no more than the permissions, of a capability in `caps`. -/
def Capability.Under (caps : Caps) (c : Capability) : Prop :=
  c = .null ∨ ∃ key, c.obj = (caps key).obj ∧ c.prm.Le (caps key).prm

theorem under_self (caps : Caps) (key : Fin objNum) : Capability.Under caps (caps key) :=
  Or.inr ⟨key, rfl, Perm.Le.refl _⟩

/-- Masking stays below. -/
theorem under_masked {caps : Caps} {c : Capability} (under : Capability.Under caps c) (pmm : Perm) :
    Capability.Under caps (.ofObject c.obj (c.prm &&& pmm)) := by
  by_cases any : c.prm &&& pmm = 0#32
  · rw [any]
    exact Or.inl rfl
  · rcases under with rfl | ⟨key, obj, le⟩
    · rw [Capability.prm_null] at any
      exact absurd BitVec.zero_and any
    · refine Or.inr ⟨key, (Capability.obj_ofObject c.aligned_obj any).trans obj, ?_⟩
      rw [Capability.prm_ofObject c.aligned_obj (c.prm_narrow.and pmm)]
      exact (Perm.and_le _ _).trans le

namespace System

/-- The space `a` of the state `u` has only capabilities that are below those of `caps`. -/
def Below (a : Word) (caps : Caps) (u : System) : Prop := ∀ key, Capability.Under caps (u.caps a key)

/-- A thread that delegates from `a` to `a`, or has done so -/
def Delegating (a : Word) (caps : Caps) : Place → Prop
  | .idle => True
  | .read d => d.src = a ∧ d.dst = a
  | .write d cap => d.src = a ∧ d.dst = a ∧ Capability.Under caps cap
  | _ => False

section Step

variable {cfg : Config} {e : Word} {s s' : System}

/-- A step of another thread does not move a thread. -/
theorem Effect.place_ne (effect : Effect cfg e s s') {e' : Word} (other : e' ≠ e) : s'.place e' = s.place e' := by
  cases effect with
  | quiet | appear | enroll | vanish | put => exact Function.update_of_ne other ..
  | point m o =>
      obtain ⟨object, same, -⟩ := publish_alike s m o
      rw [same]
      exact Function.update_of_ne other ..

theorem delegating_update {a : Word} {caps : Caps} {q : Place} (holds : Delegating a caps q) (place : Word → Place) :
    Delegating a caps (Function.update place e q e) := by
  rw [Function.update_self]
  exact holds

/-- One access of a delegation from a space to itself -/
theorem delegating_step {a : Word} {caps : Caps} {i : Input} (below : s.Below a caps)
    (at_ : Delegating a caps (s.place e)) (noCall : ∀ c, i ≠ .call c) (run : s.step cfg (e, i) = some s') :
    s'.Below a caps ∧ Delegating a caps (s'.place e) := by
  unfold step at run
  dsimp only at run
  split at run
  case h_1 c _ => exact absurd rfl (noCall c)
  case h_9 d place =>
      rw [place] at at_
      split at run
      · obtain rfl := Option.some.inj run
        exact ⟨below, delegating_update (q := .idle) trivial s.place⟩
      · obtain rfl := Option.some.inj run
        have read : Capability.Under caps ((s.caps d.src).lookup d.sSel) := at_.1 ▸ below _
        exact ⟨below, delegating_update (q := .write d _) ⟨at_.1, at_.2, read⟩ s.place⟩
  case h_10 d cap enough place =>
      rw [place] at at_
      obtain ⟨src, dst, under⟩ := at_
      cases enough with
      | false =>
          obtain rfl := Option.some.inj run
          exact ⟨below, delegating_update (q := .idle) trivial s.place⟩
      | true =>
          obtain rfl := Option.some.inj run
          let next := { d with sSel := d.sSel + 1#64, dSel := d.dSel + 1#64, k := d.k - 1 }
          refine ⟨fun key => ?_, delegating_update (q := .read next) ⟨src, dst⟩ s.place⟩
          show Capability.Under caps (Function.update s.caps d.dst (Function.update (s.caps d.dst) _ _) a key)
          rw [dst, Function.update_self]
          by_cases slot : key = Caps.key d.dSel
          · rw [slot, Function.update_self]
            exact under_masked under d.pmm
          · rw [Function.update_of_ne slot]
            exact below key
  case h_11 => cases run
  all_goals
    rename_i place
    rw [place] at at_
    exact at_.elim

end Step

/-- The thread `e` finishes its delegation and starts nothing new, and what the other threads do leaves the space `a`
below `caps`. -/
def Alone (cfg : Config) (e a : Word) (caps : Caps) (u : System) (i : Word × Input) : Prop :=
  if i.1 = e then ∀ c, i.2 ≠ .call c else ∀ u', u.step cfg i = some u' → u.Below a caps → u'.Below a caps

/-- **A delegation from a space to itself adds no permission.** -/
theorem self_delegation {cfg : Config} {e : Word} {d : Delegation} {s s' : System} (at_ : s.place e = .read d)
    (same : d.src = d.dst) {inputs : List (Word × Input)}
    (alone : Legal (fun i u => u.step cfg i) (Alone cfg e d.dst (s.caps d.dst)) s inputs)
    (run : runs (fun i u => u.step cfg i) s inputs = some s') : s'.Below d.dst (s.caps d.dst) := by
  have start : s.Below d.dst (s.caps d.dst) ∧ Delegating d.dst (s.caps d.dst) (s.place e) := by
    rw [at_]
    exact ⟨under_self _, same, rfl⟩
  generalize s.caps d.dst = caps at start alone ⊢
  clear at_
  induction inputs generalizing s with
  | nil =>
      obtain rfl := Option.some.inj run
      exact start.1
  | cons i rest ih =>
      obtain ⟨now, later⟩ := alone
      obtain ⟨u, done, run⟩ := Option.bind_eq_some_iff.mp run
      refine ih run ?_ (later u done)
      unfold Alone at now
      split at now
      · rename_i own
        obtain ⟨e', input⟩ := i
        subst own
        exact delegating_step start.1 start.2 now done
      · rename_i other
        refine ⟨now u done start.1, ?_⟩
        rw [(step_cases done).place_ne (Ne.symm other)]
        exact start.2

/-- A PD is made with the PD and the permissions of the capability that was validated. -/
theorem handle_pd {s : System} {e space : Word} {call : Call} {caps : List Capability} {m : Making}
    (made : (s.handle e space call caps).2 = .make m) (pd : m.new = .pd) :
    ∃ c ∈ caps, m.pd = c.obj ∧ m.prm = c.prm := by
  unfold handle at made
  split at made
  case h_1 _ cpt =>
      obtain ⟨r, finish⟩ := call_next s e cpt Perm.ptCall
      rw [finish] at made
      cases made
  case h_2 _ cpt =>
      obtain ⟨r, finish⟩ := call_next s e cpt Perm.ptEvent
      rw [finish] at made
      cases made
  case h_3 op sel _ cpd =>
      refine ⟨cpd, List.mem_cons_self, ?_⟩
      split at made
      · unfold createPd at made
        dsimp only at made
        split at made
        case h_1 =>
            obtain rfl := Next.make.inj made
            exact ⟨rfl, rfl⟩
        case h_8 => cases made
        all_goals
          obtain rfl := Next.make.inj made
          cases pd
      · cases made
  case h_8 =>
      split at made
      · dsimp only at made
        split at made
        · exact (ctrlPd_next _ _ _ _ _ _ made).elim
        · cases made
      · cases made
  all_goals
    repeat' split at made
    all_goals cases made
    all_goals cases pd

/-- **Authority confinement**, in every state that hypercalls reach from a booted
system under every interleaving: a capability has only permissions that the first
capability for its object was inserted with, which stay what they were and are those of
the class; a PD made by a thread has only permissions of the capability that the thread
showed, and of the PD that this capability is for.  So no capability for a semaphore
without an interrupt has the permission to assign, no assertion fails, and a delegation
from a space to itself adds nothing. -/
theorem authority_confined {cfg : Config} {s0 s : System} (booted : s0.Booted) {inputs : List (Word × Input)}
    (run : runs (fun i s => s.step cfg i) s0 inputs = some s) :
    (∀ a key, s.caps a key = .null ∨ ∃ k p, s.object (s.caps a key).obj = some k ∧
      s.granted (s.caps a key).obj = some p ∧ (s.caps a key).prm.Le p ∧ p.Le k.defined) ∧
    (∀ o p, s0.granted o = some p → s.granted o = some p) ∧
    (∀ a key k pd, s.object (s.caps a key).obj = some k → k.cls = .pd → s.caps a key ≠ .null →
      s.creator (s.caps a key).obj = some pd → ∃ q, s.granted pd = some q ∧ (s.caps a key).prm.Le q) ∧
    (∀ e space call caps m, (s.handle e space call caps).2 = .make m → m.new = .pd →
      ∃ c ∈ caps, m.pd = c.obj ∧ m.prm = c.prm) ∧
    (∀ a key, s.object (s.caps a key).obj = some (.sm noId) → ¬ Perm.smAssign.Le (s.caps a key).prm) ∧
    (∀ e space evt call, ∀ a ∈ (s.handle e space call ((call.sels evt).map (s.caps space).lookup)).1,
      ∀ holds, a = .assertion holds → holds = true) ∧
    (∀ i, ∀ a ∈ s.accesses i, ∀ holds, a = .assertion holds → holds = true) ∧
    ∀ e d s' more, s.place e = .read d → d.src = d.dst →
      Legal (fun i u => u.step cfg i) (Alone cfg e d.dst (s.caps d.dst)) s more →
      runs (fun i u => u.step cfg i) s more = some s' → s'.Below d.dst (s.caps d.dst) := by
  obtain ⟨inv, grows⟩ := booted.inv.runs run
  obtain ⟨own, any⟩ := downcast_safe booted run
  refine ⟨fun a key => ?_, grows.granted, fun a key k pd object is some_ creator => ?_,
    fun e space call caps m => handle_pd, fun a key object assign => ?_, ?_, ?_,
    fun e d s' more at_ same alone later => self_delegation at_ same alone later⟩
  · rcases inv.caps a key with null | ⟨k, p, object, granted, le, -⟩
    · exact Or.inl null
    · obtain ⟨k', object', -, -, bound⟩ := inv.granted _ p granted
      exact Or.inr ⟨k', p, object', granted, le, bound⟩
  · obtain ⟨k', p, -, granted, le, -⟩ := (inv.caps a key).resolve_left some_
    obtain ⟨q, granted', bound⟩ := inv.creator _ p pd granted creator ⟨k, object, is⟩
    exact ⟨q, granted', le.trans bound⟩
  · rcases inv.caps a key with null | ⟨k, p, -, granted, le, -⟩
    · rw [null] at object
      exact (inv.real _ _ object).1 Capability.obj_null
    · exact assignable inv object granted (assign.trans le) rfl
  · rintro e space evt call _ mem holds rfl
    exact any e space evt call _ mem
  · rintro i _ mem holds rfl
    exact own i _ mem

/-- The root thread makes a PD. -/
def rootRun : Option System :=
  runs (fun i s => s.step ⟨1, fun _ => true, true⟩ i) boot
    [(0x3000#64, .call (.createPd 0#8 0#64 (BitVec.ofNat 64 (objNum - 3)))), (0x3000#64, .go), (0x3000#64, .go),
      (0x3000#64, .made 0x4000#64), (0x3000#64, .memory true), (0x3000#64, .attached false)]

theorem authority_confined_root : ∃ s, rootRun = some s ∧ ∀ a key, s.caps a key = .null ∨
    ∃ k p, s.object (s.caps a key).obj = some k ∧ s.granted (s.caps a key).obj = some p ∧ (s.caps a key).prm.Le p ∧
      p.Le k.defined := by
  have runs_ : rootRun.isSome = true := by decide +kernel
  obtain ⟨s, run⟩ := Option.isSome_iff_exists.mp runs_
  exact ⟨s, run, (authority_confined boot_booted run).1⟩

end System

end Nova.Kernel.Syscall
