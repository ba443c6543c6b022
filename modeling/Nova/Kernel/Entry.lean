/-
# Nova.Kernel.Entry — illegal and recalled execution contexts

The machine of Nova.Kernel.Machine next to the register files of its ECs.  Of these, the
return path looks at the hazards `ILLEGAL` and `RECALL`: a `ret_user` function samples both
and hands `ILLEGAL` to `handle_hazard` in its parameter `h`; there `RECALL` is read again.
`sys_ipc_reply` lets a VMM change the registers of its caller (`state_save`), and makes the
caller `ILLEGAL` if that fails.

What the registers are and how a VMM can change them is a parameter (`Arch`).

* `runs_guarded`: no EC in user or guest mode is `ILLEGAL`, and what `state_save` and all
  other parts of the kernel keep holds of the registers of every EC in every run;
* `runs_doomed`: an EC whose reply failed never gets there again, whatever preempts or
  recalls it before it is killed.
-/
import Nova.Kernel.Abort
import Nova.Kernel.Zones

namespace Nova.Kernel.Contexts

open Nova.Theory.Runs

set_option autoImplicit false

/-- The registers of an EC.  `prepare` is what the first continuation of a virtual CPU does before its
`send_msg`, `save` is `state_save`, and `drift` is what happens to the registers otherwise. -/
structure Arch (Regs Reply Drift : Type) where
  illegal : Regs → Bool
  recalled : Regs → Bool
  setIllegal : Regs → Regs
  setRecall : Regs → Regs
  clrRecall : Regs → Regs
  prepare : Regs → Regs
  save : Msg → Reply → Regs → Bool × Regs
  drift : Drift → Regs → Regs
  illegal_setIllegal : ∀ r, illegal (setIllegal r) = true
  illegal_setRecall : ∀ r, illegal (setRecall r) = illegal r
  illegal_clrRecall : ∀ r, illegal (clrRecall r) = illegal r
  illegal_prepare : ∀ r, illegal (prepare r) = illegal r
  illegal_drift : ∀ d r, illegal (drift d r) = illegal r
  recall_setRecall : ∀ r, recalled (setRecall r) = true
  recall_clrRecall : ∀ r, recalled (clrRecall r) = false
  recall_setIllegal : ∀ r, recalled (setIllegal r) = recalled r
  recall_prepare : ∀ r, recalled (prepare r) = recalled r
  recall_save : ∀ x p r, recalled (save x p r).2 = recalled r
  recall_drift : ∀ d r, recalled (drift d r) = recalled r

/-- `h` is the bit `ILLEGAL` in the parameter of `handle_hazard`; `first` says that the continuation is
still that of the constructor of a virtual CPU.  Bookkeeping: the replies that `state_save` has accepted,
the last one first. -/
structure System (n k : Nat) (Regs Reply : Type) where
  machine : Machine n k
  regs : Fin n → Regs
  h : Fin k → Bool
  first : Fin n → Bool
  accepted : Fin n → List (Msg × Reply)

inductive Input (n : Nat) (Reply Drift : Type)
  | event (e : Machine.Event n)
  /-- `sys_ipc_reply` -/
  | reply (p : Reply)
  /-- `sys_ctrl_ec` -/
  | ctrlEc (e : Fin n)
  | drift (e : Fin n) (d : Drift)

variable {n k : Nat}

/-- `is_vcpu` -/
def Config.vcpu (cfg : Config n k) (e : Fin n) : Bool :=
  match cfg.subtype e with
  | .ecVcpuReal | .ecVcpuOffs => true
  | _ => false

/-- How an EC leaves user or guest mode, if virtual CPUs leave theirs with `vm` -/
def Config.exits (cfg : Config n k) (vm : Msg) (e : Fin n) : Msg := if cfg.vcpu e then vm else .exception

namespace Machine.Event

/-- The event, if the current EC leaves user mode with `x` -/
def by_ (x : Msg) : Event n → Event n
  | .raise _ => .raise x
  | .resolve _ => .resolve x
  | .irq i _ => .irq i x
  | e => e

def replies : Event n → Bool
  | .hypercall .ipcReply => true
  | _ => false

theorem handles_by (x : Msg) (e : Event n) : (e.by_ x).handles = e.handles := by
  cases e <;> rfl

end Machine.Event

namespace System

variable {Regs Reply Drift : Type} (cfg : Config n k) (vm : Msg) (arch : Arch Regs Reply Drift) (c : Fin k)

/-- A step of the machine -/
def run (e : Machine.Event n) (s : System n k Regs Reply) : Option (System n k Regs Reply) :=
  match s.machine.step cfg c e with
  | .error _ => none
  | .ok m => some { s with machine := m }

def setRegs (e : Fin n) (f : Regs → Regs) (s : System n k Regs Reply) : System n k Regs Reply :=
  { s with regs := Function.update s.regs e (f (s.regs e)) }

/-- The `ret_user` functions sample the hazards. -/
def retUser (e : Machine.Event n) (s : System n k Regs Reply) : Option (System n k Regs Reply) :=
  let r := s.regs (s.machine.self c)
  { s with h := Function.update s.h c (arch.illegal r) }.run cfg c
    (if arch.illegal r || arch.recalled r then .divert else e)

/-- `handle_hazard` after its preemption point -/
def handleHazard (s : System n k Regs Reply) : Option (System n k Regs Reply) :=
  let e := s.machine.self c
  if (s.machine.cpu c).sched then s.run cfg c .go
  else if s.h c then s.run cfg c .illegal
  else if arch.recalled (s.regs e) then (s.setRegs e arch.clrRecall).run cfg c .recalled
  else s.run cfg c .go

/-- A virtual CPU runs for the first time. -/
def begin_ (s : System n k Regs Reply) : System n k Regs Reply :=
  let e := s.machine.self c
  if s.first e then { s.setRegs e arch.prepare with first := Function.update s.first e false } else s

def event (e : Machine.Event n) (s : System n k Regs Reply) : Option (System n k Regs Reply) :=
  match (s.machine.cpu c).pc with
  | .ret _ => if e.returns then s.retUser cfg arch c e else s.run cfg c e
  | .hazard (.user _) =>
      if e.handles then s.handleHazard cfg arch c else s.run cfg c (e.by_ (cfg.exits vm (s.machine.self c)))
  | .run (.sendMsg _) => if e.returns then (s.begin_ arch c).run cfg c .go else s.run cfg c e
  | _ => s.run cfg c (e.by_ (cfg.exits vm (s.machine.self c)))

/-- `state_save` for the EC `a`, which has left user mode with `x` -/
def stateSave (a : Fin n) (x : Msg) (p : Reply) (s : System n k Regs Reply) : System n k Regs Reply :=
  match arch.save x p (s.regs a) with
  | (true, r) =>
      { s with regs := Function.update s.regs a r, accepted := Function.update s.accepted a ((x, p) :: s.accepted a) }
  | (false, r) => { s with regs := Function.update s.regs a (arch.setIllegal r) }

/-- `sys_ipc_reply` -/
def sysIpcReply (p : Reply) (s : System n k Regs Reply) : Option (System n k Regs Reply) :=
  let e := s.machine.self c
  if (s.machine.cpu c).pc = .user ∧ cfg.Utcb e then
    match (s.machine.ec e).caller with
    | none => s.run cfg c (.hypercall .ipcReply)
    | some a =>
        match (s.machine.ec a).cont with
        | some (.retUser (.msg x)) => (s.stateSave arch a x p).run cfg c (.hypercall .ipcReply)
        | _ => s.run cfg c (.hypercall .ipcReply)
  else some s

/-- `sys_ctrl_ec`, without its wait for a remote CPU -/
def sysCtrlEc (e : Fin n) (s : System n k Regs Reply) : Option (System n k Regs Reply) :=
  if (s.machine.cpu c).pc = .user ∧ cfg.Utcb (s.machine.self c) then
    (s.setRegs e arch.setRecall).run cfg c (.hypercall (.other .success))
  else some s

def step : Input n Reply Drift → System n k Regs Reply → Option (System n k Regs Reply)
  | .event e, s => if e.replies then some s else s.event cfg vm arch c e
  | .reply p, s => s.sysIpcReply cfg arch c p
  | .ctrlEc e, s => s.sysCtrlEc cfg arch c e
  | .drift e d, s => some (s.setRegs e (arch.drift d))

def start (root : Option (Fin n)) (count : Nat → Nat) (regs : Fin n → Regs) : System n k Regs Reply where
  machine := .init cfg root vm count
  regs := regs
  h := fun _ => false
  first := cfg.vcpu
  accepted := fun _ => []

/-! ## What holds in every run -/

/-- What is asked of `keeps`, which is to hold of the registers of every EC: of the replies, only those that
meet `heeds` need to keep it. -/
structure Lawful (arch : Arch Regs Reply Drift) (heeds : Fin n → Msg → Reply → Regs → Prop)
    (keeps : Fin n → Bool → List (Msg × Reply) → Regs → Prop) : Prop where
  setRecall : ∀ {e first l r}, keeps e first l r → keeps e first l (arch.setRecall r)
  clrRecall : ∀ {e first l r}, keeps e first l r → keeps e first l (arch.clrRecall r)
  drift : ∀ {e first l r} d, keeps e first l r → keeps e first l (arch.drift d r)
  prepare : ∀ {e l r}, keeps e true l r → keeps e false l (arch.prepare r)
  accept : ∀ {e l r r'} x p, keeps e false l r → heeds e x p r → arch.save x p r = (true, r') → keeps e false ((x, p) :: l) r'
  refuse : ∀ {e l r r'} x p, keeps e false l r → arch.save x p r = (false, r') → keeps e false l (arch.setIllegal r')

/-- A virtual CPU that has not run yet -/
def Fresh (m : Machine n k) (e : Fin n) : Prop :=
  m.Zone (fun p g => (∃ x, p = .run (.sendMsg x)) ∧ g ≠ .blocking) (fun g => ∃ x, g = .sendMsg x) e

/-- The invariant: what `handle_hazard` gets to know of `ILLEGAL` is still true when it looks at it. -/
structure Guarded (cfg : Config n k) (arch : Arch Regs Reply Drift) (count : Nat → Nat)
    (keeps : Fin n → Bool → List (Msg × Reply) → Regs → Prop) (s : System n k Regs Reply) : Prop where
  sound : Machine.Sound cfg count s.machine
  sampled : ∀ c, (s.machine.cpu c).pc.past = true → s.h c = arch.illegal (s.regs (s.machine.self c))
  user : ∀ c, (s.machine.cpu c).pc = .user → arch.illegal (s.regs (s.machine.self c)) = false
  fresh : ∀ e, s.first e = true → Fresh s.machine e
  regs : ∀ e, keeps e (s.first e) (s.accepted e) (s.regs e)

section Rules

variable {cfg : Config n k} {arch : Arch Regs Reply Drift} {c : Fin k} {count : Nat → Nat}
  {heeds : Fin n → Msg → Reply → Regs → Prop} {keeps : Fin n → Bool → List (Msg × Reply) → Regs → Prop}
  {s s' : System n k Regs Reply}

theorem fresh_closed : Machine.Closed (n := n) (fun p g => (∃ x, p = .run (.sendMsg x)) ∧ g ≠ .blocking)
    (fun g => ∃ x, g = .sendMsg x) where
  runs := by
    rintro g ⟨x, rfl⟩
    exact ⟨⟨x, rfl⟩, nofun⟩
  calm := by
    rintro g ⟨x, rfl⟩
    exact ⟨nofun, nofun⟩
  wakes := fun _ _ is => is.2

/-- Registers change such that the hazard `ILLEGAL` stays. -/
theorem Guarded.setRegs (guarded : Guarded cfg arch count keeps s) {e : Fin n} {f : Regs → Regs}
    (same : arch.illegal (f (s.regs e)) = arch.illegal (s.regs e))
    (holds : keeps e (s.first e) (s.accepted e) (f (s.regs e))) : Guarded cfg arch count keeps (s.setRegs e f) := by
  have illegal : ∀ a, arch.illegal ((s.setRegs e f).regs a) = arch.illegal (s.regs a) := by
    intro a
    unfold System.setRegs
    dsimp only
    by_cases here : a = e
    · subst here
      rw [Function.update_self]
      exact same
    · rw [Function.update_of_ne here]
  refine ⟨guarded.sound, fun c past => ?_, fun c user => ?_, guarded.fresh, fun a => ?_⟩
  · exact (guarded.sampled c past).trans (illegal _).symm
  · exact (illegal _).trans (guarded.user c user)
  · unfold System.setRegs
    dsimp only
    by_cases here : a = e
    · subst here
      rw [Function.update_self]
      exact holds
    · rw [Function.update_of_ne here]
      exact guarded.regs a

/-- What a step of the machine needs in order to keep the invariant: `h` is the hazard of the current EC when
it enters `handle_hazard`, and an `ILLEGAL` EC is diverted and killed. -/
structure Heedful (cfg : Config n k) (arch : Arch Regs Reply Drift) (c : Fin k) (e : Machine.Event n)
    (s : System n k Regs Reply) : Prop where
  samples : (∃ r, (s.machine.cpu c).pc = .ret r) → e.returns = true → s.h c = arch.illegal (s.regs (s.machine.self c))
  diverts : (∃ r, (s.machine.cpu c).pc = .ret r) → e.returns = true →
    arch.illegal (s.regs (s.machine.self c)) = true → e = .divert
  kills : (∃ r, (s.machine.cpu c).pc = .hazard (.user r)) → e.handles = true →
    arch.illegal (s.regs (s.machine.self c)) = true → e = .illegal ∨ e = .go ∧ (s.machine.cpu c).sched = true
  begins : (∃ x, (s.machine.cpu c).pc = .run (.sendMsg x)) → e.returns = true → s.first (s.machine.self c) = false

/-- Of a CPU that does not step, the place and the current EC stay. -/
theorem elsewhere {m m' : Machine n k} (move : Machine.Move cfg m c m') {c' : Fin k} (ne : c' ≠ c) :
    (m'.cpu c').pc = (m.cpu c').pc ∧ m'.self c' = m.self c' := by
  obtain ⟨q, kept⟩ := move.elsewhere ne
  rw [Machine.self, kept]
  exact ⟨rfl, rfl⟩

/-- An `ILLEGAL` EC does not get to user mode. -/
theorem Heedful.barred {e : Machine.Event n} {m : Machine n k} (heedful : Heedful cfg arch c e s)
    (graph : Graph cfg s.machine.view) (done : s.machine.step cfg c e = .ok m) (user : (m.cpu c).pc = .user)
    (before : (s.machine.cpu c).pc = .user → arch.illegal (s.regs (s.machine.self c)) = false) :
    m.self c = s.machine.self c ∧ arch.illegal (s.regs (s.machine.self c)) = false := by
  refine ⟨(Machine.step_user graph done user).1, ?_⟩
  by_contra illegal
  rw [Bool.not_eq_false] at illegal
  have already : (s.machine.cpu c).pc = .user := by
    refine Machine.step_barred graph done user (fun r pc returns => ?_) fun r pc handles is => ?_
    · exact heedful.diverts ⟨r, pc⟩ returns illegal
    · rcases heedful.kills ⟨r, pc⟩ handles illegal with killed | ⟨-, sched⟩
      · rw [is] at killed
        cases killed
      · exact sched
  rw [before already] at illegal
  cases illegal

theorem Guarded.run (guarded : Guarded cfg arch count keeps s) {e : Machine.Event n} (heedful : Heedful cfg arch c e s) :
    ∃ m, s.run cfg c e = some { s with machine := m } ∧ s.machine.step cfg c e = .ok m ∧
      Guarded cfg arch count keeps { s with machine := m } := by
  obtain ⟨m, done, move, sound⟩ := Machine.step_sound guarded.sound c e
  refine ⟨m, ?_, done, sound, fun c' past => ?_, fun c' user => ?_, fun a first => ?_, guarded.regs⟩
  · unfold System.run
    rw [done]
  · by_cases here : c' = c
    · subst here
      obtain ⟨same, from_⟩ := Machine.step_past guarded.sound.graph done past
      change s.h c' = arch.illegal (s.regs (m.self c'))
      rw [same]
      rcases from_ with before | ⟨ret, returns⟩
      · exact guarded.sampled c' before
      · exact heedful.samples ret returns
    · obtain ⟨pc, same⟩ := elsewhere move here
      change s.h c' = arch.illegal (s.regs (m.self c'))
      rw [same]
      exact guarded.sampled c' (pc ▸ past)
  · change arch.illegal (s.regs (m.self c')) = false
    by_cases here : c' = c
    · subst here
      obtain ⟨same, legal⟩ := heedful.barred guarded.sound.graph done user (guarded.user c')
      rw [same]
      exact legal
    · obtain ⟨pc, same⟩ := elsewhere move here
      rw [same]
      exact guarded.user c' (pc.symm.trans user)
  · refine Machine.zone_move fresh_closed guarded.sound.graph (guarded.fresh a first) move fun g here acts place cont => ?_
    obtain ⟨⟨x, pc⟩, -⟩ := place
    cases returns : e.returns with
    | true =>
        have began := heedful.begins ⟨x, pc⟩ returns
        rw [here] at began
        exact absurd (first.symm.trans began) (by decide)
    | false =>
        obtain ⟨cpu, ec⟩ := Machine.step_deaf (by rw [pc]; rfl) returns done
        have zone := guarded.fresh a first
        refine ⟨by rw [ec]; exact zone.callee, ?_⟩
        obtain ⟨g', cont', lies⟩ := zone.lies
        refine ⟨g', by rw [ec]; exact cont', ?_⟩
        rw [cpu]
        unfold Machine.self at lies ⊢
        rw [cpu]
        exact lies

/-- At all other places the machine does as it likes. -/
theorem heedful_of_place {e : Machine.Event n} (ret : ∀ r, (s.machine.cpu c).pc ≠ .ret r)
    (hazard : ∀ r, (s.machine.cpu c).pc ≠ .hazard (.user r)) (begins : ∀ x, (s.machine.cpu c).pc ≠ .run (.sendMsg x)) :
    Heedful cfg arch c e s :=
  ⟨fun ⟨r, is⟩ => absurd is (ret r), fun ⟨r, is⟩ => absurd is (ret r), fun ⟨r, is⟩ => absurd is (hazard r),
    fun ⟨x, is⟩ => absurd is (begins x)⟩

/-- An input: the registers change, and then the machine makes a step that heeds the hazards.  Of an EC that
waits for no reply, `ILLEGAL` stays. -/
structure Factors (cfg : Config n k) (arch : Arch Regs Reply Drift) (count : Nat → Nat)
    (keeps : Fin n → Bool → List (Msg × Reply) → Regs → Prop) (c : Fin k) (s s₁ : System n k Regs Reply)
    (result : Option (System n k Regs Reply)) : Prop where
  machine : s₁.machine = s.machine
  guarded : Guarded cfg arch count keeps s₁
  illegal : ∀ a, (s.machine.ec a).callee = none → arch.illegal (s₁.regs a) = arch.illegal (s.regs a)
  step : result = some s₁ ∨ ∃ e, Heedful cfg arch c e s₁ ∧ result = s₁.run cfg c e

/-- The registers stay. -/
theorem Factors.of_run (guarded : Guarded cfg arch count keeps s) {e : Machine.Event n} (heedful : Heedful cfg arch c e s) :
    ∃ s₁, Factors cfg arch count keeps c s s₁ (s.run cfg c e) :=
  ⟨s, rfl, guarded, fun _ _ => rfl, Or.inr ⟨e, heedful, rfl⟩⟩

/-- Registers change, and the machine makes a step. -/
theorem Factors.of_setRegs (guarded : Guarded cfg arch count keeps s) {a : Fin n} {f : Regs → Regs}
    (same : ∀ r, arch.illegal (f r) = arch.illegal r) (holds : keeps a (s.first a) (s.accepted a) (f (s.regs a)))
    {result : Option (System n k Regs Reply)}
    (step : result = some (s.setRegs a f) ∨ ∃ e, Heedful cfg arch c e (s.setRegs a f) ∧ result = (s.setRegs a f).run cfg c e) :
    ∃ s₁, Factors cfg arch count keeps c s s₁ result := by
  refine ⟨s.setRegs a f, rfl, guarded.setRegs (same _) holds, fun e _ => ?_, step⟩
  unfold System.setRegs
  dsimp only
  by_cases here : e = a
  · subst here
    rw [Function.update_self]
    exact same _
  · rw [Function.update_of_ne here]

theorem factors_retUser (guarded : Guarded cfg arch count keeps s) {r : Ret} (pc : (s.machine.cpu c).pc = .ret r)
    (e : Machine.Event n) : ∃ s₁, Factors cfg arch count keeps c s s₁ (s.retUser cfg arch c e) := by
  refine ⟨{ s with h := Function.update s.h c (arch.illegal (s.regs (s.machine.self c))) }, rfl, ?_, fun _ _ => rfl,
    Or.inr ⟨_, ?_, rfl⟩⟩
  · refine ⟨guarded.sound, fun c' past => ?_, guarded.user, guarded.fresh, guarded.regs⟩
    have other : c' ≠ c := by
      rintro rfl
      change (s.machine.cpu c').pc.past = true at past
      rw [pc] at past
      cases past
    dsimp only
    rw [Function.update_of_ne other]
    exact guarded.sampled c' past
  · refine ⟨fun _ _ => Function.update_self .., fun _ _ illegal => ?_, fun ⟨r', is⟩ => ?_, fun ⟨x, is⟩ => ?_⟩
    · change arch.illegal (s.regs (s.machine.self c)) = true at illegal
      rw [illegal]
      rfl
    · exact absurd (pc.symm.trans is) nofun
    · exact absurd (pc.symm.trans is) nofun

theorem factors_handleHazard (lawful : Lawful arch heeds keeps) (guarded : Guarded cfg arch count keeps s) {r : Ret}
    (pc : (s.machine.cpu c).pc = .hazard (.user r)) :
    ∃ s₁, Factors cfg arch count keeps c s s₁ (s.handleHazard cfg arch c) := by
  have sampled := guarded.sampled c (by rw [pc]; rfl)
  have heedful : ∀ {e : Machine.Event n} {t : System n k Regs Reply}, t.machine = s.machine →
      (arch.illegal (t.regs (t.machine.self c)) = true → e = .illegal ∨ e = .go ∧ (t.machine.cpu c).sched = true) →
      Heedful cfg arch c e t := by
    intro e t same kills
    refine ⟨fun ⟨r', is⟩ => ?_, fun ⟨r', is⟩ => ?_, fun _ _ => kills, fun ⟨x, is⟩ => ?_⟩
    all_goals
      rw [same] at is
      exact absurd (pc.symm.trans is) nofun
  unfold System.handleHazard
  dsimp only
  split
  · rename_i sched
    exact Factors.of_run guarded (heedful rfl fun _ => Or.inr ⟨rfl, sched⟩)
  · split
    · exact Factors.of_run guarded (heedful rfl fun _ => Or.inl rfl)
    · rename_i legal
      rw [sampled] at legal
      split
      · refine Factors.of_setRegs guarded arch.illegal_clrRecall (lawful.clrRecall (guarded.regs _))
          (Or.inr ⟨_, heedful rfl fun illegal => ?_, rfl⟩)
        unfold System.setRegs at illegal
        dsimp only at illegal
        rw [Function.update_self, arch.illegal_clrRecall] at illegal
        exact absurd illegal legal
      · exact Factors.of_run guarded (heedful rfl fun illegal => absurd illegal legal)

/-- The first step of a virtual CPU -/
theorem Guarded.begin_ (lawful : Lawful arch heeds keeps) (guarded : Guarded cfg arch count keeps s) :
    Guarded cfg arch count keeps (s.begin_ arch c) ∧ (s.begin_ arch c).first (s.machine.self c) = false ∧
      ∀ a, arch.illegal ((s.begin_ arch c).regs a) = arch.illegal (s.regs a) := by
  unfold System.begin_
  dsimp only
  split
  · rename_i first
    have illegal : ∀ a, arch.illegal ((s.setRegs (s.machine.self c) arch.prepare).regs a) = arch.illegal (s.regs a) := by
      intro a
      unfold System.setRegs
      dsimp only
      by_cases here : a = s.machine.self c
      · subst here
        rw [Function.update_self]
        exact arch.illegal_prepare _
      · rw [Function.update_of_ne here]
    refine ⟨⟨guarded.sound, fun c' past => ?_, fun c' user => ?_, fun a still => ?_, fun a => ?_⟩,
      Function.update_self .., illegal⟩
    · exact (guarded.sampled c' past).trans (illegal _).symm
    · exact (illegal _).trans (guarded.user c' user)
    · dsimp only at still
      by_cases here : a = s.machine.self c
      · subst here
        rw [Function.update_self] at still
        cases still
      · rw [Function.update_of_ne here] at still
        exact guarded.fresh a still
    · unfold System.setRegs
      dsimp only
      by_cases here : a = s.machine.self c
      · subst here
        rw [Function.update_self, Function.update_self]
        refine lawful.prepare ?_
        rw [← first]
        exact guarded.regs _
      · rw [Function.update_of_ne here, Function.update_of_ne here]
        exact guarded.regs a
  · rename_i later
    exact ⟨guarded, by simpa using later, fun _ => rfl⟩

theorem begin_machine : (s.begin_ arch c).machine = s.machine := by
  unfold System.begin_
  dsimp only
  split <;> rfl

theorem factors_event (lawful : Lawful arch heeds keeps) (guarded : Guarded cfg arch count keeps s) (vm : Msg)
    (e : Machine.Event n) :
    ∃ s₁, Factors cfg arch count keeps c s s₁ (s.event cfg vm arch c e) := by
  unfold System.event
  split
  · rename_i r pc
    split
    · exact factors_retUser guarded pc e
    · rename_i other
      refine Factors.of_run guarded ⟨fun _ is => absurd is other, fun _ is => absurd is other, fun ⟨r', is⟩ => ?_, fun ⟨x, is⟩ => ?_⟩
      · exact absurd (pc.symm.trans is) nofun
      · exact absurd (pc.symm.trans is) nofun
  · rename_i r pc
    split
    · exact factors_handleHazard lawful guarded pc
    · rename_i other
      refine Factors.of_run guarded ⟨fun ⟨r', is⟩ => ?_, fun ⟨r', is⟩ => ?_, fun _ is => ?_, fun ⟨x, is⟩ => ?_⟩
      · exact absurd (pc.symm.trans is) nofun
      · exact absurd (pc.symm.trans is) nofun
      · rw [Machine.Event.handles_by] at is
        exact absurd is other
      · exact absurd (pc.symm.trans is) nofun
  · rename_i x pc
    split
    · obtain ⟨began, first, illegal⟩ := guarded.begin_ (c := c) lawful
      refine ⟨s.begin_ arch c, begin_machine, began, fun a _ => illegal a, Or.inr ⟨.go, ?_, rfl⟩⟩
      refine ⟨fun ⟨r', is⟩ => ?_, fun ⟨r', is⟩ => ?_, fun ⟨r', is⟩ => ?_, fun _ _ => ?_⟩
      · rw [begin_machine] at is
        exact absurd (pc.symm.trans is) nofun
      · rw [begin_machine] at is
        exact absurd (pc.symm.trans is) nofun
      · rw [begin_machine] at is
        exact absurd (pc.symm.trans is) nofun
      · rw [begin_machine]
        exact first
    · rename_i other
      refine Factors.of_run guarded ⟨fun ⟨r', is⟩ => ?_, fun ⟨r', is⟩ => ?_, fun ⟨r', is⟩ => ?_, fun _ is => absurd is other⟩
      all_goals exact absurd (pc.symm.trans is) nofun
  · rename_i ret hazard begins
    exact Factors.of_run guarded (heedful_of_place (fun r is => ret r is) (fun r is => hazard r is) fun x is => begins x is)

/-- The EC `a` waits for a reply, so that it neither runs nor is new. -/
theorem Guarded.waits (guarded : Guarded cfg arch count keeps s) {a : Fin n}
    (caller : (s.machine.ec (s.machine.self c)).caller = some a) :
    (∀ c', s.machine.self c' ≠ a) ∧ s.first a = false ∧ (s.machine.ec a).callee ≠ none := by
  obtain ⟨callee, -⟩ := Machine.partners guarded.sound.graph caller
  have busy : (s.machine.ec a).callee ≠ none := by
    rw [callee]
    nofun
  refine ⟨fun c' here => ?_, ?_, busy⟩
  · subst here
    exact busy (guarded.sound.graph.last c')
  · cases first : s.first a with
    | false => rfl
    | true => exact absurd (guarded.fresh a first).callee busy

/-- `state_save` -/
theorem Guarded.stateSave (lawful : Lawful arch heeds keeps) (guarded : Guarded cfg arch count keeps s) {a : Fin n}
    (caller : (s.machine.ec (s.machine.self c)).caller = some a) {x : Msg} {p : Reply}
    (heed : (arch.save x p (s.regs a)).1 = true → heeds a x p (s.regs a)) :
    Guarded cfg arch count keeps (s.stateSave arch a x p) := by
  obtain ⟨still, first, -⟩ := guarded.waits caller
  have mine := guarded.regs a
  rw [first] at mine
  -- only the registers of an EC change that is current nowhere
  have change : ∀ (r : Regs) (l : List (Msg × Reply)), keeps a false l r →
      Guarded cfg arch count keeps { s with
        regs := Function.update s.regs a r, accepted := Function.update s.accepted a l } := by
    intro r l holds
    have same : ∀ c', (Function.update s.regs a r) (s.machine.self c') = s.regs (s.machine.self c') :=
      fun c' => Function.update_of_ne (still c') ..
    refine ⟨guarded.sound, fun c' past => ?_, fun c' user => ?_, guarded.fresh, fun e => ?_⟩
    · dsimp only
      rw [same]
      exact guarded.sampled c' past
    · dsimp only
      rw [same]
      exact guarded.user c' user
    · dsimp only
      by_cases here : e = a
      · subst here
        rw [Function.update_self, Function.update_self, first]
        exact holds
      · rw [Function.update_of_ne here, Function.update_of_ne here]
        exact guarded.regs e
  unfold System.stateSave
  cases saved : arch.save x p (s.regs a) with
  | mk good r =>
      cases good with
      | true => exact change r _ (lawful.accept x p mine (heed (by rw [saved])) saved)
      | false =>
          have refused := change (arch.setIllegal r) (s.accepted a) (lawful.refuse x p mine saved)
          rw [Function.update_eq_self] at refused
          exact refused

theorem stateSave_machine {a : Fin n} {x : Msg} {p : Reply} : (s.stateSave arch a x p).machine = s.machine := by
  unfold System.stateSave
  split <;> rfl

theorem stateSave_regs {a e : Fin n} {x : Msg} {p : Reply} (other : e ≠ a) :
    (s.stateSave arch a x p).regs e = s.regs e := by
  unfold System.stateSave
  split <;> exact Function.update_of_ne other ..

end Rules

/-- The EC that `sys_ipc_reply` saves the state of, and how it left user mode -/
def addressee (cfg : Config n k) (c : Fin k) (s : System n k Regs Reply) : Option (Fin n × Msg) :=
  let e := s.machine.self c
  if (s.machine.cpu c).pc = .user ∧ cfg.Utcb e then
    match (s.machine.ec e).caller with
    | none => none
    | some a =>
        match (s.machine.ec a).cont with
        | some (.retUser (.msg x)) => some (a, x)
        | _ => none
  else none

/-- The condition on the replies -/
def Obeys (cfg : Config n k) (heeds : Fin n → Msg → Reply → Regs → Prop) (s : System n k Regs Reply)
    (i : Fin k × Input n Reply Drift) : Prop :=
  match i.2, s.addressee cfg i.1 with
  | .reply p, some (a, x) => heeds a x p (s.regs a)
  | _, _ => True

instance (cfg : Config n k) (heeds : Fin n → Msg → Reply → Regs → Prop) [∀ e x p r, Decidable (heeds e x p r)]
    (s : System n k Regs Reply) (i : Fin k × Input n Reply Drift) : Decidable (Obeys cfg heeds s i) :=
  match h : i.2, h' : s.addressee cfg i.1 with
  | .reply p, some (a, x) =>
      decidable_of_iff (heeds a x p (s.regs a)) (by unfold Obeys; rw [h, h'])
  | .reply _, none => .isTrue (by unfold Obeys; rw [h, h']; trivial)
  | .event _, _ => .isTrue (by unfold Obeys; rw [h]; trivial)
  | .ctrlEc _, _ => .isTrue (by unfold Obeys; rw [h]; trivial)
  | .drift _ _, _ => .isTrue (by unfold Obeys; rw [h]; trivial)

section Steps

variable {cfg : Config n k} {arch : Arch Regs Reply Drift} {c : Fin k} {count : Nat → Nat}
  {heeds : Fin n → Msg → Reply → Regs → Prop} {keeps : Fin n → Bool → List (Msg × Reply) → Regs → Prop}
  {s s' : System n k Regs Reply}

theorem factors_reply (lawful : Lawful arch heeds keeps) (guarded : Guarded cfg arch count keeps s) (p : Reply)
    (obeys : Obeys cfg heeds s (c, (.reply p : Input n Reply Drift))) :
    ∃ s₁, Factors cfg arch count keeps c s s₁ (s.sysIpcReply cfg arch c p) := by
  unfold Obeys addressee at obeys
  unfold System.sysIpcReply
  dsimp only at obeys ⊢
  split
  · rename_i enabled
    rw [if_pos enabled] at obeys
    have heedful : ∀ {e : Machine.Event n} {t : System n k Regs Reply}, t.machine = s.machine → Heedful cfg arch c e t := by
      intro e t same
      refine heedful_of_place (fun r is => ?_) (fun r is => ?_) fun x is => ?_
      all_goals
        rw [same, enabled.1] at is
        cases is
    cases caller : (s.machine.ec (s.machine.self c)).caller with
    | none => exact Factors.of_run guarded (heedful rfl)
    | some a =>
        rw [caller] at obeys
        dsimp only at obeys ⊢
        split
        · rename_i x cont
          rw [cont] at obeys
          obtain ⟨-, -, busy⟩ := guarded.waits caller
          refine ⟨s.stateSave arch a x p, stateSave_machine, guarded.stateSave lawful caller fun _ => obeys, fun e alone => ?_,
            Or.inr ⟨_, heedful stateSave_machine, rfl⟩⟩
          rw [stateSave_regs]
          rintro rfl
          exact busy alone
        · exact Factors.of_run guarded (heedful rfl)
  · exact ⟨s, rfl, guarded, fun _ _ => rfl, Or.inl rfl⟩

theorem factors_step (lawful : Lawful arch heeds keeps) (guarded : Guarded cfg arch count keeps s) (vm : Msg)
    (i : Fin k × Input n Reply Drift) (obeys : Obeys cfg heeds s i) :
    ∃ s₁, Factors cfg arch count keeps i.1 s s₁ (s.step cfg vm arch i.1 i.2) := by
  obtain ⟨c, i⟩ := i
  cases i with
  | event e =>
      unfold System.step
      dsimp only
      split
      · exact ⟨s, rfl, guarded, fun _ _ => rfl, Or.inl rfl⟩
      · exact factors_event lawful guarded vm e
  | reply p => exact factors_reply lawful guarded p obeys
  | ctrlEc a =>
      unfold System.step System.sysCtrlEc
      dsimp only
      split
      · rename_i enabled
        refine Factors.of_setRegs guarded arch.illegal_setRecall (lawful.setRecall (guarded.regs a))
          (Or.inr ⟨_, heedful_of_place (fun r is => ?_) (fun r is => ?_) fun x is => ?_, rfl⟩)
        all_goals exact absurd (enabled.1.symm.trans is) nofun
      · exact ⟨s, rfl, guarded, fun _ _ => rfl, Or.inl rfl⟩
  | drift a d => exact Factors.of_setRegs guarded (arch.illegal_drift d) (lawful.drift d (guarded.regs a)) (Or.inl rfl)

theorem step_guarded (lawful : Lawful arch heeds keeps) (guarded : Guarded cfg arch count keeps s) (vm : Msg)
    (i : Fin k × Input n Reply Drift) (obeys : Obeys cfg heeds s i) :
    ∃ s', s.step cfg vm arch i.1 i.2 = some s' ∧ Guarded cfg arch count keeps s' := by
  obtain ⟨s₁, factors⟩ := factors_step lawful guarded vm i obeys
  rcases factors.step with done | ⟨e, heedful, done⟩
  · exact ⟨s₁, done, factors.guarded⟩
  · obtain ⟨m, ran, -, guarded'⟩ := factors.guarded.run heedful
    exact ⟨_, done.trans ran, guarded'⟩

end Steps

/-! ## Doomed -/

end System

/-- The return path of an EC that is not to return: up to `handle_hazard`, and to `kill` -/
def Pc.dooms : Pc n → Bool
  | .run (.retUser _) | .run .dead | .ret _ | .kill => true
  | p => p.past

namespace Machine

variable {cfg : Config n k} {m m' : Machine n k} {c : Fin k}

theorem acts_of_dooms {p : Pc n} (dooms : p.dooms = true) : p.rests = false := by
  cases p <;> first | rfl | cases dooms

theorem leaves_of_dooms {p : Pc n} (dooms : p.dooms = true) : p.leaves = false := by
  cases p <;> first | rfl | cases dooms

theorem resume_dooms {p : Pc n} {x : Msg} {back : Back n} (dooms : p.dooms = true) (enabled : p.resume x = some back) :
    back.past = true := by
  cases p with
  | hazard f =>
      cases enabled
      cases f with
      | user r => rfl
      | idle => cases dooms
  | user => cases dooms
  | halt => cases dooms
  | help t => cases dooms
  | pause => cases dooms
  | _ => cases enabled

theorem dooms_of_back {back : Back n} (past : back.past = true) : back.pc.dooms = true := by
  obtain ⟨r, rfl⟩ := past_of_handler past
  rfl

theorem Goes.dooms {p q : Pc n} (goes : Goes cfg m c p q) (dooms : p.dooms = true) (stays : q.leaves = false) :
    q.dooms = true := by
  cases goes with
  | stay => exact dooms
  | back enabled => exact dooms_of_back (resume_dooms dooms enabled)
  | handler e enabled => exact resume_dooms dooms enabled
  | finish => cases dooms
  | cancel s => cases dooms
  | jump jump =>
      cases jump with
      | ret r => rfl
      | dead => rfl
      | divert r => rfl
      | illegal r => rfl
      | woken e back empty => exact dooms_of_back dooms
      | requeued t back empty => exact dooms_of_back dooms
      | rrq enabled => exact resume_dooms dooms enabled
      | resume enabled => exact dooms_of_back (resume_dooms dooms enabled)
      | pass f free =>
          cases f with
          | user r => cases stays
          | idle => cases dooms
      | user r free => cases stays
      | recalled r x => cases stays
      | _ => cases dooms

/-- The return path is left in a `ret_user` function or in `handle_hazard`. -/
theorem Goes.stays {p q : Pc n} (goes : Goes cfg m c p q) (dooms : p.dooms = true) (ret : ∀ r, p ≠ .ret r)
    (hazard : ∀ f, p ≠ .hazard f) : q.leaves = false := by
  cases goes with
  | stay => exact leaves_of_dooms dooms
  | back enabled => exact leaves_back _
  | handler e enabled => rfl
  | finish => rfl
  | cancel s => rfl
  | jump jump =>
      cases jump with
      | user r free => exact absurd rfl (ret r)
      | pass f free => exact absurd rfl (hazard f)
      | recalled r x => exact absurd rfl (hazard _)
      | sendMsg x => cases dooms
      | sysIpcCall => cases dooms
      | ipcCall utcb => cases dooms
      | raise x => cases dooms
      | woken e back empty => exact leaves_back back
      | requeued t back empty => exact leaves_back back
      | resume enabled => exact leaves_back _
      | _ => rfl

/-- An EC that runs at the end of its return path, or will run there -/
def Doomed (m : Machine n k) (a : Fin n) : Prop :=
  m.Zone (fun p g => p.dooms = true ∧ g ≠ .blocking) (fun g => g = .dead ∨ ∃ r, g = .retUser r) a

theorem doomed_closed : Closed (n := n) (fun p g => p.dooms = true ∧ g ≠ .blocking)
    (fun g => g = .dead ∨ ∃ r, g = .retUser r) where
  runs := by
    rintro g (rfl | ⟨r, rfl⟩)
    · exact ⟨rfl, nofun⟩
    · exact ⟨rfl, nofun⟩
  calm := by
    rintro g (rfl | ⟨r, rfl⟩)
    · exact ⟨nofun, nofun⟩
    · exact ⟨nofun, nofun⟩
  wakes := fun _ _ is => is.2

/-- An EC that stops running on its CPU runs nowhere. -/
theorem rests_of_stop {a : Fin n} (graph : Graph cfg m.view) (move : Move cfg m c m') (here : m.self c = a)
    (stops : m'.self c = a → (m'.cpu c).pc.rests = true) : ∀ c', m'.self c' = a → (m'.cpu c').pc.rests = true := by
  intro c' there
  by_cases same : c' = c
  · subst same
    exact stops there
  · obtain ⟨q, kept⟩ := move.elsewhere same
    rw [self, kept] at there
    have home : c' = c := (graph.home c').symm.trans ((congrArg cfg.cpu (there.trans here.symm)).trans (graph.home c))
    exact absurd home same

/-- A doomed EC stays doomed unless it leaves its return path. -/
theorem doomed_move {a : Fin n} (graph : Graph cfg m.view) (doomed : m.Doomed a) (move : Move cfg m c m')
    (stays : m.self c = a → (m.cpu c).pc.dooms = true → Goes cfg m c (m.cpu c).pc (m'.cpu c).pc →
      (m'.cpu c).pc.leaves = false) : m'.Doomed a := by
  refine zone_move doomed_closed graph doomed move fun g here acts place cont => ?_
  obtain ⟨dooms, awake⟩ := place
  have leaves := leaves_of_dooms dooms
  have kernel : (m.cpu c).pc ≠ .user := fun is => by
    rw [is] at leaves
    cases leaves
  have silent : ∀ i, (m.cpu c).pc ≠ .ipc i := fun i is => by
    rw [is] at leaves
    cases leaves
  have alone : (m'.ec a).callee = none := move.callee doomed.callee fun _ => silent
  subst here
  rcases move.own_step graph acts kernel silent cont awake with ⟨same, kept, goes⟩ | ⟨f, pc, same, place, kept⟩ | ⟨pc, dead, stops⟩
  · have dooms' := goes.dooms dooms (stays rfl dooms goes)
    exact ⟨alone, g, kept, Or.inl ⟨c, same, acts_of_dooms dooms', dooms', awake⟩⟩
  · have preempted : ∃ r, f = .user r := by
      rw [pc] at dooms
      cases f with
      | user r => exact ⟨r, rfl⟩
      | idle => cases dooms
    obtain ⟨r, rfl⟩ := preempted
    refine ⟨alone, .retUser r, kept, Or.inr ⟨rests_of_stop graph move rfl fun _ => ?_, Or.inr ⟨r, rfl⟩⟩⟩
    rw [place]
    rfl
  · exact ⟨alone, .dead, dead, Or.inr ⟨rests_of_stop graph move rfl stops, Or.inl rfl⟩⟩

end Machine

namespace System

variable {Regs Reply Drift : Type}

section Fate

variable {cfg : Config n k} {arch : Arch Regs Reply Drift} {c : Fin k} {count : Nat → Nat}
  {heeds : Fin n → Msg → Reply → Regs → Prop} {keeps : Fin n → Bool → List (Msg × Reply) → Regs → Prop}
  {s s' : System n k Regs Reply}

/-- An `ILLEGAL` EC does not leave its return path. -/
theorem Heedful.stays {e : Machine.Event n} {m : Machine n k} (heedful : Heedful cfg arch c e s)
    (done : s.machine.step cfg c e = .ok m) (illegal : arch.illegal (s.regs (s.machine.self c)) = true)
    (goes : Machine.Goes cfg s.machine c (s.machine.cpu c).pc (m.cpu c).pc) (dooms : (s.machine.cpu c).pc.dooms = true) :
    (m.cpu c).pc.leaves = false := by
  cases pc : (s.machine.cpu c).pc with
  | ret r =>
      cases returns : e.returns with
      | true =>
          obtain rfl := heedful.diverts ⟨r, pc⟩ returns illegal
          simp only [Machine.step, pc] at done
          cases done
          simp [Pc.leaves]
      | false =>
          rw [(Machine.step_deaf (by rw [pc]; rfl) returns done).1, pc]
          rfl
  | hazard f =>
      obtain ⟨r, rfl⟩ : ∃ r, f = .user r := by
        rw [pc] at dooms
        cases f with
        | user r => exact ⟨r, rfl⟩
        | idle => cases dooms
      cases handles : e.handles with
      | true =>
          rcases heedful.kills ⟨r, pc⟩ handles illegal with rfl | ⟨rfl, sched⟩
          · simp only [Machine.step, pc] at done
            cases done
            split
            · rw [pc]
              rfl
            · simp [Pc.leaves]
          · simp only [Machine.step, Machine.go, pc, sched] at done
            cases done
            simp [Machine.preempt, Pc.leaves]
      | false => exact Machine.step_hazard pc handles done
  | _ =>
      refine goes.stays dooms (fun r is => ?_) fun f is => ?_
      all_goals exact absurd (pc.symm.trans is) (by rintro ⟨⟩)

theorem Guarded.doomed_run (guarded : Guarded cfg arch count keeps s) {e : Machine.Event n} {m : Machine n k} {a : Fin n}
    (heedful : Heedful cfg arch c e s) (done : s.machine.step cfg c e = .ok m) (illegal : arch.illegal (s.regs a) = true)
    (doomed : s.machine.Doomed a) : m.Doomed a := by
  obtain ⟨m', done', move, -⟩ := Machine.step_sound guarded.sound c e
  obtain rfl := Except.ok.inj (done.symm.trans done')
  refine Machine.doomed_move guarded.sound.graph doomed move fun here dooms goes => ?_
  subst here
  exact heedful.stays done illegal goes dooms

/-- An `ILLEGAL` EC on its return path -/
structure Condemned (arch : Arch Regs Reply Drift) (a : Fin n) (s : System n k Regs Reply) : Prop where
  illegal : arch.illegal (s.regs a) = true
  doomed : s.machine.Doomed a

theorem step_condemned (lawful : Lawful arch heeds keeps) (guarded : Guarded cfg arch count keeps s) {a : Fin n}
    (condemned : Condemned arch a s) (vm : Msg) (i : Fin k × Input n Reply Drift) (obeys : Obeys cfg heeds s i) :
    ∃ s', s.step cfg vm arch i.1 i.2 = some s' ∧ Guarded cfg arch count keeps s' ∧ Condemned arch a s' := by
  obtain ⟨s₁, factors⟩ := factors_step lawful guarded vm i obeys
  have illegal : arch.illegal (s₁.regs a) = true := (factors.illegal a condemned.doomed.callee).trans condemned.illegal
  have doomed : s₁.machine.Doomed a := by
    rw [factors.machine]
    exact condemned.doomed
  rcases factors.step with done | ⟨e, heedful, done⟩
  · exact ⟨s₁, done, factors.guarded, illegal, doomed⟩
  · obtain ⟨m, ran, stepped, guarded'⟩ := factors.guarded.run heedful
    exact ⟨_, done.trans ran, guarded', illegal, factors.guarded.doomed_run heedful stepped illegal doomed⟩

theorem addressee_eq_some {a : Fin n} {x : Msg} (is : s.addressee cfg c = some (a, x)) :
    ((s.machine.cpu c).pc = .user ∧ cfg.Utcb (s.machine.self c)) ∧
      (s.machine.ec (s.machine.self c)).caller = some a ∧ (s.machine.ec a).cont = some (.retUser (.msg x)) := by
  unfold addressee at is
  dsimp only at is
  split at is
  · rename_i enabled
    refine ⟨enabled, ?_⟩
    cases caller : (s.machine.ec (s.machine.self c)).caller with
    | none =>
        rw [caller] at is
        cases is
    | some b =>
        rw [caller] at is
        dsimp only at is
        split at is
        · rename_i y cont
          obtain ⟨rfl, rfl⟩ := Prod.mk.inj (Option.some.inj is)
          exact ⟨rfl, cont⟩
        · cases is
  · cases is

/-- The EC to which a reply goes is on its return path afterwards. -/
theorem replied_doomed {m : Machine n k} {a : Fin n} {r : Ret} (graph : Graph cfg m.view)
    (caller : (m.ec (m.self c)).caller = some a) (graph' : Graph cfg (m.replied cfg c a none (.retUser r)).view) :
    (m.replied cfg c a none (.retUser r)).Doomed a := by
  have callee : ((m.replied cfg c a none (.retUser r)).ec a).callee = none := by
    have same : (m.replied cfg c a none (.retUser r)).ec = (m.unlinked c a none (some (.retUser r))).ec := by
      unfold Machine.replied
      split <;> rfl
    rw [same, Machine.unlinked, Machine.setCpu_ec, Machine.setEc_ec, if_pos rfl]
  have cont : ((m.replied cfg c a none (.retUser r)).ec a).cont = some (.retUser r) := by
    rw [Machine.replied_cont, if_pos rfl]
  refine ⟨callee, .retUser r, cont, ?_⟩
  rcases Machine.replied_pending graph caller none (.retUser r) graph' with pending | ⟨c', here, runs | ⟨success, -⟩⟩
  · exact Or.inr ⟨pending.still, Or.inr ⟨r, rfl⟩⟩
  · refine Or.inl ⟨c', here, ?_, ?_⟩
    · rw [runs]
      rfl
    · rw [runs]
      exact ⟨rfl, by rintro ⟨⟩⟩
  · cases success

/-- **A reply that fails** leaves the EC `ILLEGAL` and on its return path. -/
theorem reply_condemns (lawful : Lawful arch heeds keeps) (guarded : Guarded cfg arch count keeps s) {a : Fin n} {x : Msg}
    {p : Reply} {r : Regs} (is : s.addressee cfg c = some (a, x)) (refused : arch.save x p (s.regs a) = (false, r)) (vm : Msg) :
    ∃ s', s.step cfg vm arch c (.reply p) = some s' ∧ Guarded cfg arch count keeps s' ∧ Condemned arch a s' ∧
      s'.regs a = arch.setIllegal r := by
  obtain ⟨enabled, caller, cont⟩ := addressee_eq_some is
  have saved : Guarded cfg arch count keeps (s.stateSave arch a x p) := by
    refine guarded.stateSave lawful caller fun accepted => ?_
    rw [refused] at accepted
    cases accepted
  have place : ((s.stateSave arch a x p).machine.cpu c).pc = .user := by
    rw [stateSave_machine]
    exact enabled.1
  have heedful : Heedful cfg arch c (.hypercall .ipcReply) (s.stateSave arch a x p) := by
    refine heedful_of_place (fun r is => ?_) (fun r is => ?_) fun y is => ?_
    all_goals exact absurd (place.symm.trans is) nofun
  have condemned : (s.stateSave arch a x p).regs a = arch.setIllegal r := by
    unfold System.stateSave
    rw [refused]
    exact Function.update_self ..
  obtain ⟨m, ran, stepped, guarded'⟩ := saved.run heedful
  have result : m = s.machine.replied cfg c a none (.retUser (.msg x)) := by
    rw [stateSave_machine] at stepped
    simp only [Machine.step, Machine.hypercall, if_pos enabled] at stepped
    rw [Machine.sysIpcReply_eq guarded.sound.graph caller cont] at stepped
    exact (Except.ok.inj stepped).symm
  refine ⟨_, ?_, guarded', ⟨?_, ?_⟩, condemned⟩
  · unfold System.step System.sysIpcReply
    dsimp only
    rw [if_pos enabled, caller]
    dsimp only
    rw [cont]
    exact ran
  · change arch.illegal ((s.stateSave arch a x p).regs a) = true
    rw [condemned]
    exact arch.illegal_setIllegal r
  · change m.Doomed a
    have graph' := guarded'.sound.graph
    change Graph cfg m.view at graph'
    rw [result] at graph' ⊢
    exact replied_doomed guarded.sound.graph caller graph'

/-- What is left to a condemned EC: it is diverted and killed. -/
structure Perishes (cfg : Config n k) (vm : Msg) (arch : Arch Regs Reply Drift) (a : Fin n) (s : System n k Regs Reply) :
    Prop where
  out : ∀ c, s.machine.self c = a → (s.machine.cpu c).pc ≠ .user
  place : ∀ c, s.machine.self c = a → (s.machine.cpu c).pc.rests = true ∨ (s.machine.cpu c).pc.dooms = true
  cont : (∀ c, s.machine.self c = a → (s.machine.cpu c).pc.rests = true) →
    (s.machine.ec a).cont = some .dead ∨ ∃ r, (s.machine.ec a).cont = some (.retUser r)
  diverts : ∀ c r, s.machine.self c = a → (s.machine.cpu c).pc = .ret r →
    ∃ s', s.step cfg vm arch c (.event .go) = some s' ∧ s'.machine.self c = a ∧ (s'.machine.cpu c).pc = .hazard (.user r)
  kills : ∀ c r, s.machine.self c = a → (s.machine.cpu c).pc = .hazard (.user r) → (s.machine.cpu c).sched = false →
    ∃ s', s.step cfg vm arch c (.event .go) = some s' ∧ s'.machine.self c = a ∧ (s'.machine.cpu c).pc = .kill

theorem Condemned.perishes {a : Fin n} (condemned : Condemned arch a s) (guarded : Guarded cfg arch count keeps s) (vm : Msg) :
    Perishes cfg vm arch a s := by
  have graph := guarded.sound.graph
  have home : ∀ {c₁ c₂ : Fin k}, s.machine.self c₁ = a → s.machine.self c₂ = a → c₁ = c₂ := fun here there =>
    (graph.home _).symm.trans ((congrArg cfg.cpu (here.trans there.symm)).trans (graph.home _))
  obtain ⟨-, g, cont, lies⟩ := condemned.doomed
  have place : ∀ c, s.machine.self c = a → (s.machine.cpu c).pc.rests = true ∨ (s.machine.cpu c).pc.dooms = true := by
    intro c here
    rcases lies with ⟨c', there, -, dooms, -⟩ | ⟨still, -⟩
    · obtain rfl := home here there
      exact Or.inr dooms
    · exact Or.inl (still c here)
  refine ⟨fun c here user => ?_, place, fun still => ?_, fun c r here pc => ?_, fun c r here pc free => ?_⟩
  · rcases place c here with rests | dooms
    · rw [user] at rests
      cases rests
    · rw [user] at dooms
      cases dooms
  · rcases lies with ⟨c', there, acts, -⟩ | ⟨-, rfl | ⟨r, rfl⟩⟩
    · exact absurd (still c' there) (by rw [acts]; decide)
    · exact Or.inl cont
    · exact Or.inr ⟨r, cont⟩
  · change ∃ s', s.event cfg vm arch c .go = some s' ∧ _
    unfold System.event
    rw [pc]
    dsimp only
    rw [if_pos (by rfl)]
    unfold System.retUser System.run
    dsimp only
    rw [here, condemned.illegal]
    simp only [Bool.true_or, if_true, Machine.step, pc]
    exact ⟨_, rfl, (Machine.goto_self ..).trans here, by rw [Machine.goto_pc, if_pos rfl]⟩
  · have sampled := guarded.sampled c (by rw [pc]; rfl)
    rw [here, condemned.illegal] at sampled
    change ∃ s', s.event cfg vm arch c .go = some s' ∧ _
    unfold System.event
    rw [pc]
    dsimp only
    rw [if_pos (by rfl)]
    unfold System.handleHazard System.run
    dsimp only
    rw [free, sampled]
    simp only [Bool.false_eq_true, if_false, if_true, Machine.step, pc, free]
    exact ⟨_, rfl, (Machine.goto_self ..).trans here, by rw [Machine.goto_pc, if_pos rfl]⟩

/-! ## Runs -/

theorem guarded_start (root : Option (Fin n)) (vm : Msg) (regs : Fin n → Regs) (holds : ∀ e, keeps e (cfg.vcpu e) [] (regs e)) :
    Guarded cfg arch count keeps (start cfg vm root count regs : System n k Regs Reply) := by
  refine ⟨Machine.sound_init cfg root vm count, fun c past => ?_, fun c user => ?_, fun e first => ?_, holds⟩
  · cases past
  · cases user
  · change cfg.vcpu e = true at first
    have idle : ∀ c, cfg.idleEc c ≠ e := by
      rintro c rfl
      unfold Config.vcpu at first
      rw [cfg.idle_subtype] at first
      cases first
    have busy : ¬ cfg.Idle e := fun is => idle _ is.symm
    refine ⟨rfl, .sendMsg vm, ?_, Or.inr ⟨fun c here => absurd here (idle c), vm, rfl⟩⟩
    change Machine.boots cfg root vm e = some (.sendMsg vm)
    unfold Machine.boots
    rw [if_neg busy]
    unfold Config.vcpu at first
    cases kind : cfg.subtype e with
    | ecVcpuReal => rfl
    | ecVcpuOffs => rfl
    | ecLocal =>
        rw [kind] at first
        cases first
    | ecGlobal =>
        rw [kind] at first
        cases first

theorem runs_guarded (lawful : Lawful arch heeds keeps) (vm : Msg) (guarded : Guarded cfg arch count keeps s)
    (inputs : List (Fin k × Input n Reply Drift))
    (legal : Legal (fun i s => s.step cfg vm arch i.1 i.2) (Obeys cfg heeds) s inputs) :
    ∃ s', runs (fun i s => s.step cfg vm arch i.1 i.2) s inputs = some s' ∧ Guarded cfg arch count keeps s' :=
  Legal.safe (I := Guarded cfg arch count keeps) (fun _ i guarded obeys => step_guarded lawful guarded vm i obeys)
    inputs s guarded legal

theorem runs_condemned {a : Fin n} (lawful : Lawful arch heeds keeps) (vm : Msg) (guarded : Guarded cfg arch count keeps s)
    (condemned : Condemned arch a s) (inputs : List (Fin k × Input n Reply Drift))
    (legal : Legal (fun i s => s.step cfg vm arch i.1 i.2) (Obeys cfg heeds) s inputs) :
    ∃ s', runs (fun i s => s.step cfg vm arch i.1 i.2) s inputs = some s' ∧ Perishes cfg vm arch a s' := by
  obtain ⟨s', done, guarded', condemned'⟩ := Legal.safe
    (I := fun s => Guarded cfg arch count keeps s ∧ Condemned arch a s)
    (fun _ i inv obeys => step_condemned lawful inv.1 inv.2 vm i obeys) inputs s ⟨guarded, condemned⟩ legal
  exact ⟨s', done, condemned'.perishes guarded' vm⟩

theorem lawful_true (arch : Arch Regs Reply Drift) :
    Lawful (n := n) arch (fun _ _ _ _ => True) (fun _ _ _ _ => True) := by
  constructor <;> intros <;> trivial

theorem obeys_true (s : System n k Regs Reply) (i : Fin k × Input n Reply Drift) :
    Obeys cfg (fun _ _ _ _ => True) s i := by
  unfold Obeys
  split <;> trivial

/-- **Once a reply has failed, its EC never gets back to user mode**, in any run. -/
theorem reply_perishes (guarded : Guarded cfg arch count (fun _ _ _ _ => True) s) {a : Fin n} {x : Msg} {p : Reply} {r : Regs}
    (is : s.addressee cfg c = some (a, x)) (refused : arch.save x p (s.regs a) = (false, r)) (vm : Msg) :
    ∃ s', s.step cfg vm arch c (.reply p) = some s' ∧ s'.regs a = arch.setIllegal r ∧
      ∀ later : List (Fin k × Input n Reply Drift),
        ∃ s'', runs (fun i s => s.step cfg vm arch i.1 i.2) s' later = some s'' ∧ Perishes cfg vm arch a s'' := by
  obtain ⟨s', done, guarded', condemned, regs⟩ := reply_condemns (lawful_true arch) guarded is refused vm
  refine ⟨s', done, regs, fun later => ?_⟩
  exact runs_condemned (lawful_true arch) vm guarded' condemned later (Legal.of_forall obeys_true later s')

/-- What holds of the registers is no concern of the hazards. -/
theorem Guarded.plain (guarded : Guarded cfg arch count keeps s) : Guarded cfg arch count (fun _ _ _ _ => True) s :=
  ⟨guarded.sound, guarded.sampled, guarded.user, guarded.fresh, fun _ => trivial⟩

end Fate

local instance : NeZero 1 := ⟨by decide⟩
local instance : NeZero 3 := ⟨by decide⟩

theorem guest_count : 3 ≤ 2 ^ 24 := by decide

/-- One CPU with its idle EC 0, a virtual CPU 1 with the SC 1, and a local EC 2 of its VMM -/
def oneGuest : Config 3 1 :=
  { Machine.pair with
    subtype := fun e => if e = 0 then .ecGlobal else if e = 1 then .ecVcpuReal else .ecLocal
    idle_subtype := fun _ => rfl
    ec_count := guest_count }

/-- The virtual CPU runs for the first time, its VMM replies, and it returns to its guest. -/
def enterGuest {Reply Drift : Type} (p : Reply) : List (Fin 1 × Input 3 Reply Drift) :=
  [.event (.createRoot 1), .event .go, .event .go, .event .go, .event .go, .event .go, .event (.lookup (some 2) false),
    .event .go, .event .go, .reply p, .event .go, .event .go].map ((0, ·))

end System

end Nova.Kernel.Contexts
