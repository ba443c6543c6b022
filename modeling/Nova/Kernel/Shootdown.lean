/-
# Nova.Kernel.Shootdown — stale translations on x86

`delegate` (`src/space_mem.cpp`) changes the page tables of a space and calls its `sync`, which
marks the TLBs of all CPUs (`htlb`, `gtlb`) and lets `Tlb::shootdown` interrupt the CPUs whose
current EC uses the space (`src/x86_64/tlb.cpp`).  A CPU looks at its mark when it switches to an
EC of a host space (`Space_hst::make_current`), and before it enters a guest
(`ret_user_vmexit_vmx`).

A CPU is in user or guest mode, in `Ec_arch::make_current`, at the end of `ret_user_vmexit_vmx`,
or elsewhere in the kernel.  From there it may return to its EC unless `SCHED` is set, or switch
to another one.  An `RKE` interrupt may come whenever interrupts can be enabled, and the processor
may cache a translation at any time.  Memory is assumed to be sequentially consistent: the steps of the
CPUs are interleaved, and each sees what the others have written.

* `tlb_shootdown`: in every run no mark is lost and no stale translation of a guest space is used
  after `sync`; nor is one of a host space, in every run in which no shootdown looks at a CPU that
  has decided not to flush the space any more while its current EC is still that of another space;
* `not_shootdown`: otherwise it is.
-/
import Mathlib.Logic.Function.Basic
import Nova.Theory.Runs

namespace Nova.Kernel.Tlb

open Nova.Theory.Runs

set_option autoImplicit false
set_option linter.unusedSectionVars false

/-- A `Space_hst` or a `Space_gst` -/
inductive Space (H G : Type)
  | hst (h : H)
  | gst (g : G)
  deriving DecidableEq

/-- The ECs with what is constant of them, the idle EC of each CPU, and whether the CPUs have PCIDs -/
structure Config (E H G : Type) (k : Nat) where
  hst : E → H
  vcpu : E → Bool
  cpu : E → Fin k
  idle : Fin k → E
  idle_cpu : ∀ c, cpu (idle c) = c
  pcid : Bool

/-- Where a CPU is: in the mode of its EC, in the kernel, in `make_current` of an EC before it looks at the
mark, before it loads CR3 (so that this flushes, or not) and before the EC becomes current, or in
`ret_user_vmexit_vmx` before it looks at the mark, before `invalidate`, and before the guest is entered. -/
inductive Place (E : Type)
  | user | guest | kernel
  | switch (e : E)
  | load (e : E) (flush : Bool)
  | enter (e : E)
  | vmentry | invalidate | resume
  deriving DecidableEq

/-- How far `delegate` is: it updates page tables, or its shootdown has come to the CPU `i` -/
inductive Phase (E : Type)
  | update
  | sample (i : Nat)
  | look (i : Nat) (e : E)
  | count (i : Nat)
  | wait (i : Nat) (cnt : BitVec 32)

/-- A call of `delegate`.  Bookkeeping: how many updates of the space `sync` was called after -/
structure Task (E H G : Type) where
  space : Space H G
  version : Nat
  phase : Phase E

/-- `space` is `Space_hst::current`, `sched` is `Hazard::SCHED`, and `rke` is `Counter::req[RKE]`. -/
structure Cpu (E H G : Type) where
  current : E
  space : H
  place : Place E
  sched : Bool
  rke : BitVec 32
  task : Option (Task E H G)

/-- `tlb` are the bits of `htlb` and `gtlb`.  The TLBs: for every translation that a CPU has cached, how many
updates of the space had been made before.  Bookkeeping: the number of updates, the flushes that are pending,
and the calls of `sync` that have returned. -/
structure State (E H G : Type) (k : Nat) where
  cpu : Fin k → Cpu E H G
  gst : E → Option G
  tlb : Fin k → Space H G → Bool
  cached : Fin k → Space H G → List Nat
  version : Space H G → Nat
  owes : Fin k → Space H G → Bool
  synced : List (Space H G × Nat)

inductive Act (E H G : Type)
  /-- a hypercall, an exception, a VM exit, another interrupt -/
  | trap
  /-- the processor caches a translation. -/
  | fill (x : Space H G)
  | rke
  /-- anything that sets `SCHED` -/
  | hazard
  /-- the end of `ret_user_hypercall` and `ret_user_exception`, or the beginning of `ret_user_vmexit_vmx` -/
  | ret
  /-- `make_current`, called by IPC or by the scheduler -/
  | switch (e : E) (schedule : Bool)
  /-- the next step of `make_current` or `ret_user_vmexit_vmx` -/
  | step
  /-- `assign_spaces` for a virtual CPU that waits for a reply -/
  | assign (e : E) (g : G)
  /-- `delegate` begins, updates, and calls `sync`, and the next step of `shootdown` -/
  | delegate (x : Space H G)
  | update | sync | shootdown

namespace State

variable {E H G : Type} {k : Nat} [DecidableEq E] [DecidableEq H] [DecidableEq G] (cfg : Config E H G k) (c : Fin k)

def setCpu (f : Cpu E H G → Cpu E H G) (s : State E H G k) : State E H G k :=
  { s with cpu := Function.update s.cpu c (f (s.cpu c)) }

def goto (p : Place E) (s : State E H G k) : State E H G k := s.setCpu c fun x => { x with place := p }

/-- CR3 is loaded without the bit 63, or `INVEPT` -/
def flush (x : Space H G) (s : State E H G k) : State E H G k :=
  { s with
    cached := Function.update s.cached c (Function.update (s.cached c) x [])
    owes := Function.update s.owes c (Function.update (s.owes c) x false) }

/-- `htlb.clr` or `gtlb.clr` -/
def clr (x : Space H G) (s : State E H G k) : State E H G k :=
  { s with tlb := Function.update s.tlb c (Function.update (s.tlb c) x false) }

/-- `Space_hst::make_current`, up to the load of CR3 -/
def tstHst (e : E) (s : State E H G k) : State E H G k :=
  let x : Space H G := .hst (cfg.hst e)
  if s.tlb c x then (s.clr c x).goto c (.load e true)
  else if (s.cpu c).space = cfg.hst e then s.goto c (.enter e)
  else s.goto c (.load e (!cfg.pcid))

/-- The load of CR3 -/
def load (e : E) (flush : Bool) (s : State E H G k) : State E H G k :=
  (if flush then s.flush c (.hst (cfg.hst e)) else s).setCpu c fun x => { x with space := cfg.hst e, place := .enter e }

/-- `ret_user_vmexit_vmx` -/
def tstGst (s : State E H G k) : State E H G k :=
  match s.gst (s.cpu c).current with
  | none => s
  | some g => if s.tlb c (.gst g) then (s.clr c (.gst g)).goto c .invalidate else s.goto c .resume

def invalidate (s : State E H G k) : State E H G k :=
  match s.gst (s.cpu c).current with
  | none => s
  | some g => (s.flush c (.gst g)).goto c .resume

def next (s : State E H G k) : State E H G k :=
  match (s.cpu c).place with
  | .switch e => s.tstHst cfg c e
  | .load e flush => s.load cfg c e flush
  | .enter e => s.setCpu c fun x => { x with current := e, place := .kernel }
  | .vmentry => s.tstGst c
  | .invalidate => s.invalidate c
  | .resume => s.goto c .guest
  | _ => s

/-- `Interrupt::handle_ipi` and `rke_handler` -/
def handleIpi (s : State E H G k) : State E H G k :=
  let sched := s.tlb c (.hst (s.cpu c).space)
  match (s.cpu c).place with
  | .user | .guest | .kernel =>
      s.setCpu c fun x => { x with place := .kernel, rke := x.rke + 1, sched := x.sched || sched }
  | _ => s

/-- The EC uses the space. -/
def Uses (s : State E H G k) (e : E) (x : Space H G) : Prop := .hst (cfg.hst e) = x ∨ (s.gst e).map .gst = some x

instance (s : State E H G k) (e : E) (x : Space H G) : Decidable (s.Uses cfg e x) := inferInstanceAs (Decidable (_ ∨ _))

def setPhase (t : Task E H G) (p : Phase E) (s : State E H G k) : State E H G k :=
  s.setCpu c fun x => { x with task := some { t with phase := p } }

/-- One step of `Tlb::shootdown` -/
def shootdown (t : Task E H G) (s : State E H G k) : State E H G k :=
  match t.phase with
  | .update => s
  | .sample i =>
      if h : i < k then s.setPhase c t (.look i (s.cpu ⟨i, h⟩).current)
      else { s.setCpu c fun x => { x with task := none } with synced := (t.space, t.version) :: s.synced }
  | .look i e =>
      if s.Uses cfg e t.space then
        if i = c then (s.setPhase c t (.sample (i + 1))).setCpu c fun x => { x with sched := true }
        else s.setPhase c t (.count i)
      else s.setPhase c t (.sample (i + 1))
  | .count i => if h : i < k then s.setPhase c t (.wait i (s.cpu ⟨i, h⟩).rke) else s
  | .wait i cnt =>
      if h : i < k then
        if (s.cpu ⟨i, h⟩).rke = cnt then s else s.setPhase c t (.sample (i + 1))
      else s

/-- `sync` up to the shootdown: the marks of all CPUs are set. -/
def sync (t : Task E H G) (s : State E H G k) : State E H G k :=
  { s with
    tlb := fun c' => Function.update (s.tlb c') t.space true
    owes := fun c' => Function.update (s.owes c') t.space true }.setPhase c { t with version := s.version t.space } (.sample 0)

/-- The kernel code of an EC that does not delegate -/
def Free (s : State E H G k) : Prop := (s.cpu c).place = .kernel ∧ (s.cpu c).task.isSome = false

instance (s : State E H G k) : Decidable (s.Free c) := inferInstanceAs (Decidable (_ ∧ _))

def step : Act E H G → State E H G k → State E H G k
  | .trap, s => if (s.cpu c).place = .user ∨ (s.cpu c).place = .guest then s.goto c .kernel else s
  | .fill x, s =>
      { s with cached := Function.update s.cached c (Function.update (s.cached c) x (s.version x :: s.cached c x)) }
  | .rke, s => s.handleIpi c
  | .hazard, s => if (s.cpu c).place = .kernel then s.setCpu c fun x => { x with sched := true } else s
  | .ret, s =>
      if s.Free c ∧ (s.cpu c).sched = false then
        s.goto c (if cfg.vcpu (s.cpu c).current then .vmentry else .user)
      else s
  | .switch e schedule, s =>
      if s.Free c ∧ cfg.cpu e = c then
        s.setCpu c fun x => { x with place := .switch e, sched := x.sched && !schedule }
      else s
  | .step, s => s.next cfg c
  | .assign e g, s =>
      if s.Free c ∧ cfg.cpu e = c ∧ e ≠ (s.cpu c).current then { s with gst := Function.update s.gst e (some g) } else s
  | .delegate x, s =>
      if s.Free c then s.setCpu c fun y => { y with task := some { space := x, version := 0, phase := .update } } else s
  | .update, s =>
      match (s.cpu c).task with
      | some { space := x, phase := .update, .. } => { s with version := Function.update s.version x (s.version x + 1) }
      | _ => s
  | .sync, s =>
      match (s.cpu c).task with
      | some { space := x, version := v, phase := .update } => s.sync c { space := x, version := v, phase := .update }
      | _ => s
  | .shootdown, s =>
      match (s.cpu c).task with
      | some t => s.shootdown cfg c t
      | none => s

def run (s : State E H G k) (acts : List (Fin k × Act E H G)) : State E H G k :=
  acts.foldl (fun s a => s.step cfg a.1 a.2) s

/-- Every CPU runs its idle EC. -/
def boot (gst : E → Option G) : State E H G k where
  cpu := fun c =>
    { current := cfg.idle c, space := cfg.hst (cfg.idle c), place := .kernel, sched := false, rke := 0, task := none }
  gst := gst
  tlb := fun _ _ => false
  cached := fun _ _ => []
  version := fun _ => 0
  owes := fun _ _ => false
  synced := []

section Fields

variable {c} (s : State E H G k) (f : Cpu E H G → Cpu E H G)

@[simp] theorem setCpu_self : (s.setCpu c f).cpu c = f (s.cpu c) := Function.update_self ..
@[simp] theorem setCpu_gst : (s.setCpu c f).gst = s.gst := rfl
@[simp] theorem setCpu_tlb : (s.setCpu c f).tlb = s.tlb := rfl
@[simp] theorem setCpu_cached : (s.setCpu c f).cached = s.cached := rfl
@[simp] theorem setCpu_version : (s.setCpu c f).version = s.version := rfl
@[simp] theorem setCpu_owes : (s.setCpu c f).owes = s.owes := rfl
@[simp] theorem setCpu_synced : (s.setCpu c f).synced = s.synced := rfl

theorem setCpu_other {j : Fin k} (other : j ≠ c) : (s.setCpu c f).cpu j = s.cpu j := Function.update_of_ne other ..

end Fields

/-! ## What a step does -/

section Steps

variable (s : State E H G k)

/-- The effects of a step of the CPU `c` -/
inductive Move : State E H G k → Prop
  | stay : Move s
  | fill (x : Space H G) : Move { s with
      cached := Function.update s.cached c (Function.update (s.cached c) x (s.version x :: s.cached c x)) }
  | trap : (s.cpu c).place = .user ∨ (s.cpu c).place = .guest → Move (s.goto c .kernel)
  | rke : (s.cpu c).place = .user ∨ (s.cpu c).place = .guest ∨ (s.cpu c).place = .kernel →
      Move (s.setCpu c fun x => { x with
        place := .kernel, rke := x.rke + 1, sched := x.sched || s.tlb c (.hst (s.cpu c).space) })
  | hazard : (s.cpu c).place = .kernel → Move (s.setCpu c fun x => { x with sched := true })
  | user : s.Free c → (s.cpu c).sched = false → cfg.vcpu (s.cpu c).current = false → Move (s.goto c .user)
  | vmentry : s.Free c → (s.cpu c).sched = false → cfg.vcpu (s.cpu c).current = true → Move (s.goto c .vmentry)
  | switch (e : E) (sched : Bool) : s.Free c → cfg.cpu e = c →
      Move (s.setCpu c fun x => { x with place := .switch e, sched := sched })
  | clear {e : E} : (s.cpu c).place = .switch e → s.tlb c (.hst (cfg.hst e)) = true →
      Move ((s.clr c (.hst (cfg.hst e))).goto c (.load e true))
  | skip {e : E} : (s.cpu c).place = .switch e → s.tlb c (.hst (cfg.hst e)) = false → (s.cpu c).space = cfg.hst e →
      Move (s.goto c (.enter e))
  | keep {e : E} (flush : Bool) : (s.cpu c).place = .switch e → s.tlb c (.hst (cfg.hst e)) = false →
      Move (s.goto c (.load e flush))
  | load {e : E} {flush : Bool} : (s.cpu c).place = .load e flush → Move (s.load cfg c e flush)
  | enter {e : E} : (s.cpu c).place = .enter e → Move (s.setCpu c fun x => { x with current := e, place := .kernel })
  | clearGst {g : G} : (s.cpu c).place = .vmentry → s.gst (s.cpu c).current = some g →
      s.tlb c (.gst g) = true → Move ((s.clr c (.gst g)).goto c .invalidate)
  | keepGst {g : G} : (s.cpu c).place = .vmentry → s.gst (s.cpu c).current = some g →
      s.tlb c (.gst g) = false → Move (s.goto c .resume)
  | invept {g : G} : (s.cpu c).place = .invalidate → s.gst (s.cpu c).current = some g →
      Move ((s.flush c (.gst g)).goto c .resume)
  | resume : (s.cpu c).place = .resume → Move (s.goto c .guest)
  | assign (e : E) (g : G) : (s.cpu c).place = .kernel → cfg.cpu e = c → e ≠ (s.cpu c).current →
      Move { s with gst := Function.update s.gst e (some g) }
  | delegate (x : Space H G) : s.Free c →
      Move (s.setCpu c fun y => { y with task := some { space := x, version := 0, phase := .update } })
  | update (x : Space H G) : Move { s with version := Function.update s.version x (s.version x + 1) }
  | sync {t : Task E H G} : (s.cpu c).task = some t → t.phase = .update → Move (s.sync c t)
  | shootdown {t : Task E H G} : (s.cpu c).task = some t → Move (s.shootdown cfg c t)

theorem next_move : Move cfg c s (s.next cfg c) := by
  unfold next
  split
  · rename_i e place
    unfold tstHst
    dsimp only
    split
    · rename_i bit
      exact .clear place bit
    · rename_i clear
      split
      · rename_i same
        exact .skip place (by simpa using clear) same
      · exact .keep _ place (by simpa using clear)
  · rename_i e flush place
    exact .load place
  · rename_i e place
    exact .enter place
  · rename_i place
    unfold tstGst
    split
    · exact .stay
    · rename_i g is
      split
      · rename_i bit
        exact .clearGst place is bit
      · rename_i clear
        exact .keepGst place is (by simpa using clear)
  · rename_i place
    unfold invalidate
    split
    · exact .stay
    · rename_i g is
      exact .invept place is
  · rename_i place
    exact .resume place
  · exact .stay

theorem step_move (a : Act E H G) : Move cfg c s (s.step cfg c a) := by
  cases a with
  | trap =>
      unfold step
      dsimp only
      split
      · rename_i place
        exact .trap place
      · exact .stay
  | fill x => exact .fill x
  | rke =>
      unfold step handleIpi
      dsimp only
      split
      · rename_i place
        exact .rke (Or.inl place)
      · rename_i place
        exact .rke (Or.inr (Or.inl place))
      · rename_i place
        exact .rke (Or.inr (Or.inr place))
      · exact .stay
  | hazard =>
      unfold step
      dsimp only
      split
      · rename_i place
        exact .hazard place
      · exact .stay
  | ret =>
      unfold step
      dsimp only
      split
      · rename_i guard
        split
        · rename_i vcpu
          exact .vmentry guard.1 guard.2 vcpu
        · rename_i host
          exact .user guard.1 guard.2 (by simpa using host)
      · exact .stay
  | switch e schedule =>
      unfold step
      dsimp only
      split
      · rename_i guard
        exact .switch e ((s.cpu c).sched && !schedule) guard.1 guard.2
      · exact .stay
  | step => exact next_move cfg c s
  | assign e g =>
      unfold step
      dsimp only
      split
      · rename_i guard
        exact .assign e g guard.1.1 guard.2.1 guard.2.2
      · exact .stay
  | delegate x =>
      unfold step
      dsimp only
      split
      · rename_i free
        exact .delegate x free
      · exact .stay
  | update =>
      unfold step
      dsimp only
      split
      · exact .update _
      · exact .stay
  | sync =>
      unfold step
      dsimp only
      split
      · rename_i is
        exact .sync is rfl
      · exact .stay
  | shootdown =>
      unfold step
      dsimp only
      split
      · rename_i is
        exact .shootdown is
      · exact .stay

end Steps

/-! ## Where a CPU is -/

end State

namespace Place

variable {E : Type}

/-- The EC that becomes current -/
def target : Place E → Option E
  | .switch e | .load e _ | .enter e => some e
  | _ => none

/-- Only a virtual CPU gets there. -/
def guests : Place E → Bool
  | .guest | .vmentry | .invalidate | .resume => true
  | _ => false

end Place

variable {E H G : Type} {k : Nat} [DecidableEq E] [DecidableEq H] [DecidableEq G] {cfg : Config E H G k} {c : Fin k}
  {s s' : State E H G k}

/-- `Space_hst::current` is the space of the EC whose code is executed next. -/
def Cpu.Loaded (cfg : Config E H G k) (x : Cpu E H G) : Prop :=
  match x.place with
  | .load _ _ => True
  | .enter e => x.space = cfg.hst e
  | _ => x.space = cfg.hst x.current

structure Steady (cfg : Config E H G k) (c : Fin k) (x : Cpu E H G) : Prop where
  home : cfg.cpu x.current = c
  target : ∀ e, x.place.target = some e → cfg.cpu e = c
  loaded : x.Loaded cfg
  guests : x.place.guests = true → cfg.vcpu x.current = true
  host : x.place = .user → cfg.vcpu x.current = false
  busy : x.task.isSome = true → x.place = .kernel

namespace State

/-- Nothing of another CPU but its marks is changed. -/
theorem Move.other (move : Move cfg c s s') {j : Fin k} (other : j ≠ c) :
    s'.cpu j = s.cpu j ∧ s'.cached j = s.cached j := by
  cases move with
  | stay => exact ⟨rfl, rfl⟩
  | fill x => exact ⟨rfl, Function.update_of_ne other ..⟩
  | clear place bit => exact ⟨setCpu_other _ _ other, rfl⟩
  | @load e flush place =>
      unfold State.load
      refine ⟨?_, ?_⟩
      · rw [setCpu_other _ _ other]
        cases flush <;> rfl
      · rw [setCpu_cached]
        cases flush with
        | false => rfl
        | true => exact Function.update_of_ne other ..
  | invept place is => exact ⟨setCpu_other _ _ other, Function.update_of_ne other ..⟩
  | assign e g place home away => exact ⟨rfl, rfl⟩
  | update x => exact ⟨rfl, rfl⟩
  | sync is phase =>
      unfold State.sync setPhase
      exact ⟨setCpu_other _ _ other, rfl⟩
  | @shootdown t is =>
      unfold State.shootdown setPhase
      split
      · exact ⟨rfl, rfl⟩
      · split
        · exact ⟨setCpu_other _ _ other, rfl⟩
        · dsimp only
          exact ⟨setCpu_other _ _ other, rfl⟩
      · split
        · split
          · exact ⟨by rw [setCpu_other _ _ other, setCpu_other _ _ other], rfl⟩
          · exact ⟨setCpu_other _ _ other, rfl⟩
        · exact ⟨setCpu_other _ _ other, rfl⟩
      · split
        · exact ⟨setCpu_other _ _ other, rfl⟩
        · exact ⟨rfl, rfl⟩
      · split
        · split
          · exact ⟨rfl, rfl⟩
          · exact ⟨setCpu_other _ _ other, rfl⟩
        · exact ⟨rfl, rfl⟩
  | _ => exact ⟨setCpu_other _ _ other, rfl⟩

/-- A shootdown changes its phase, and possibly sets `SCHED` of its own CPU. -/
theorem shootdown_cpu (cfg : Config E H G k) (c : Fin k) (s : State E H G k) (t : Task E H G) : ∃ task sched, ((s.cpu c).sched = true → sched = true) ∧
    (s.shootdown cfg c t).cpu c = { s.cpu c with task := task, sched := sched } := by
  have same : ∃ task sched, ((s.cpu c).sched = true → sched = true) ∧
      s.cpu c = { s.cpu c with task := task, sched := sched } := ⟨_, _, id, rfl⟩
  have phase : ∀ p : Phase E, ∃ task sched, ((s.cpu c).sched = true → sched = true) ∧
      (s.setPhase c t p).cpu c = { s.cpu c with task := task, sched := sched } :=
    fun p => ⟨_, _, id, setCpu_self ..⟩
  unfold State.shootdown
  split
  · exact same
  · split
    · exact phase _
    · refine ⟨none, _, id, ?_⟩
      dsimp only
      exact setCpu_self ..
  · split
    · split
      · rename_i i _ _ _ _
        refine ⟨some { t with phase := .sample (i + 1) }, true, fun _ => rfl, ?_⟩
        rw [setCpu_self, setPhase, setCpu_self]
      · exact phase _
    · exact phase _
  · split
    · exact phase _
    · exact same
  · split
    · split
      · exact same
      · exact phase _
    · exact same

/-- **A CPU stays steady.** -/
theorem Move.steady (move : Move cfg c s s') (steady : Steady cfg c (s.cpu c)) : Steady cfg c (s'.cpu c) := by
  obtain ⟨home, target, loaded, guests, host, busy⟩ := steady
  -- a CPU that is not in the kernel has no task
  have idle : ∀ {p : Place E}, (s.cpu c).place = p → p ≠ .kernel → (s.cpu c).task.isSome = false := by
    intro p place other
    rw [← Bool.not_eq_true]
    exact fun task => other (place.symm.trans (busy task))
  cases move with
  | stay => exact ⟨home, target, loaded, guests, host, busy⟩
  | fill x => exact ⟨home, target, loaded, guests, host, busy⟩
  | update x => exact ⟨home, target, loaded, guests, host, busy⟩
  | assign e g place home' away => exact ⟨home, target, loaded, guests, host, busy⟩
  | trap place =>
      rw [goto, setCpu_self]
      refine ⟨home, nofun, ?_, nofun, nofun, fun _ => rfl⟩
      unfold Cpu.Loaded at loaded
      rcases place with place | place <;> rw [place] at loaded <;> exact loaded
  | rke place =>
      rw [setCpu_self]
      refine ⟨home, nofun, ?_, nofun, nofun, fun _ => rfl⟩
      unfold Cpu.Loaded at loaded
      rcases place with place | place | place <;> rw [place] at loaded <;> exact loaded
  | hazard place =>
      rw [setCpu_self]
      exact ⟨home, target, loaded, guests, host, busy⟩
  | user free unscheduled host =>
      rw [goto, setCpu_self]
      unfold Cpu.Loaded at loaded
      rw [free.1] at loaded
      refine ⟨home, nofun, loaded, nofun, fun _ => host, fun task => ?_⟩
      exact absurd (free.2.symm.trans task) Bool.false_ne_true
  | vmentry free unscheduled vcpu =>
      rw [goto, setCpu_self]
      unfold Cpu.Loaded at loaded
      rw [free.1] at loaded
      refine ⟨home, nofun, loaded, fun _ => vcpu, nofun, fun task => ?_⟩
      exact absurd (free.2.symm.trans task) Bool.false_ne_true
  | switch e sched free home' =>
      rw [setCpu_self]
      unfold Cpu.Loaded at loaded
      rw [free.1] at loaded
      refine ⟨home, fun e' is => ?_, loaded, nofun, nofun, fun task => ?_⟩
      · obtain rfl := Option.some.inj is
        exact home'
      · exact absurd (free.2.symm.trans task) Bool.false_ne_true
  | @clear e place bit =>
      rw [goto, setCpu_self]
      refine ⟨home, fun e' is => ?_, trivial, nofun, nofun, fun task => ?_⟩
      · exact target e' (by rw [place]; exact is)
      · exact absurd ((idle place nofun).symm.trans task) Bool.false_ne_true
  | @skip e place bit same =>
      rw [goto, setCpu_self]
      refine ⟨home, fun e' is => ?_, same, nofun, nofun, fun task => ?_⟩
      · exact target e' (by rw [place]; exact is)
      · exact absurd ((idle place nofun).symm.trans task) Bool.false_ne_true
  | @keep e flush place bit =>
      rw [goto, setCpu_self]
      refine ⟨home, fun e' is => ?_, trivial, nofun, nofun, fun task => ?_⟩
      · exact target e' (by rw [place]; exact is)
      · exact absurd ((idle place nofun).symm.trans task) Bool.false_ne_true
  | @load e flush place =>
      have cpu : (if flush = true then s.flush c (.hst (cfg.hst e)) else s).cpu = s.cpu := by
        cases flush <;> rfl
      rw [State.load, setCpu_self, cpu]
      refine ⟨home, fun e' is => ?_, rfl, nofun, nofun, fun task => ?_⟩
      · exact target e' (by rw [place]; exact is)
      · exact absurd ((idle place nofun).symm.trans task) Bool.false_ne_true
  | @enter e place =>
      rw [setCpu_self]
      unfold Cpu.Loaded at loaded
      rw [place] at loaded
      exact ⟨target e (by rw [place]; rfl), nofun, loaded, nofun, nofun, fun _ => rfl⟩
  | clearGst place is bit =>
      rw [goto, setCpu_self]
      unfold Cpu.Loaded at loaded
      rw [place] at loaded guests
      refine ⟨home, nofun, loaded, fun _ => guests rfl, nofun, fun task => ?_⟩
      exact absurd ((idle place nofun).symm.trans task) Bool.false_ne_true
  | keepGst place is bit =>
      rw [goto, setCpu_self]
      unfold Cpu.Loaded at loaded
      rw [place] at loaded guests
      refine ⟨home, nofun, loaded, fun _ => guests rfl, nofun, fun task => ?_⟩
      exact absurd ((idle place nofun).symm.trans task) Bool.false_ne_true
  | invept place is =>
      rw [goto, setCpu_self]
      unfold Cpu.Loaded at loaded
      rw [place] at loaded guests
      refine ⟨home, nofun, loaded, fun _ => guests rfl, nofun, fun task => ?_⟩
      exact absurd ((idle place nofun).symm.trans task) Bool.false_ne_true
  | resume place =>
      rw [goto, setCpu_self]
      unfold Cpu.Loaded at loaded
      rw [place] at loaded guests
      refine ⟨home, nofun, loaded, fun _ => guests rfl, nofun, fun task => ?_⟩
      exact absurd ((idle place nofun).symm.trans task) Bool.false_ne_true
  | delegate x free =>
      rw [setCpu_self]
      exact ⟨home, target, loaded, guests, host, fun _ => free.1⟩
  | sync is phase =>
      rw [State.sync, setPhase, setCpu_self]
      refine ⟨home, target, loaded, guests, host, fun _ => busy ?_⟩
      rw [is]
      rfl
  | @shootdown t is =>
      obtain ⟨task, sched, -, after⟩ := shootdown_cpu cfg c s t
      rw [after]
      refine ⟨home, target, loaded, guests, host, fun _ => busy ?_⟩
      rw [is]
      rfl

/-! ## Marks -/

/-- The CPU has a translation that was cached before the update number `v`. -/
def Stale (s : State E H G k) (c : Fin k) (x : Space H G) (v : Nat) : Prop := ∃ w ∈ s.cached c x, w < v

instance (s : State E H G k) (c : Fin k) (x : Space H G) (v : Nat) : Decidable (s.Stale c x v) :=
  inferInstanceAs (Decidable (∃ w ∈ s.cached c x, w < v))

/-- The CPU has cleared its mark and flushes the space next. -/
def Flushing (cfg : Config E H G k) (s : State E H G k) (c : Fin k) (x : Space H G) : Prop :=
  (∃ e, (s.cpu c).place = .load e true ∧ .hst (cfg.hst e) = x) ∨
    (s.cpu c).place = .invalidate ∧ (s.gst (s.cpu c).current).map .gst = some x

/-- A mark of a pending flush is cleared only for this flush. -/
def Pending (cfg : Config E H G k) (s : State E H G k) : Prop :=
  ∀ c x, s.owes c x = true → s.tlb c x = true ∨ s.Flushing cfg c x

structure Sound (cfg : Config E H G k) (s : State E H G k) : Prop where
  steady : ∀ c, Steady cfg c (s.cpu c)
  pending : s.Pending cfg

/-- All translations from before the update number `v` are flushed, or marked. -/
structure Marked (s : State E H G k) (x : Space H G) (v : Nat) : Prop where
  le : v ≤ s.version x
  marked : ∀ c, s.owes c x = true ∨ ¬ s.Stale c x v

theorem shootdown_marks (t : Task E H G) : (s.shootdown cfg c t).tlb = s.tlb ∧ (s.shootdown cfg c t).owes = s.owes ∧
    (s.shootdown cfg c t).cached = s.cached ∧ (s.shootdown cfg c t).version = s.version ∧
    (s.shootdown cfg c t).gst = s.gst := by
  unfold State.shootdown setPhase
  split
  · exact ⟨rfl, rfl, rfl, rfl, rfl⟩
  · split <;> exact ⟨rfl, rfl, rfl, rfl, rfl⟩
  · split
    · split <;> exact ⟨rfl, rfl, rfl, rfl, rfl⟩
    · exact ⟨rfl, rfl, rfl, rfl, rfl⟩
  · split <;> exact ⟨rfl, rfl, rfl, rfl, rfl⟩
  · split
    · split <;> exact ⟨rfl, rfl, rfl, rfl, rfl⟩
    · exact ⟨rfl, rfl, rfl, rfl, rfl⟩

/-- The guest space of a current EC stays. -/
theorem Move.gst (move : Move cfg c s s') (home : ∀ j, cfg.cpu (s.cpu j).current = j) (j : Fin k) :
    s'.gst (s.cpu j).current = s.gst (s.cpu j).current := by
  cases move with
  | assign e g place home' away =>
      dsimp only
      refine Function.update_of_ne ?_ ..
      rintro rfl
      obtain rfl : j = c := (home j).symm.trans home'
      exact away rfl
  | @load e flush place => cases flush <;> rfl
  | @shootdown t is => rw [(shootdown_marks t).2.2.2.2]
  | _ => rfl

theorem flush_cached (x y : Space H G) (v : Nat) (j : Fin k) (stale : (s.flush c x).Stale j y v) :
    ¬ (j = c ∧ y = x) ∧ s.Stale j y v := by
  obtain ⟨w, member, old⟩ := stale
  unfold flush at member
  dsimp only at member
  by_cases here : j = c
  · subst here
    rw [Function.update_self] at member
    by_cases same : y = x
    · subst same
      rw [Function.update_self] at member
      cases member
    · rw [Function.update_of_ne same] at member
      exact ⟨fun is => same is.2, w, member, old⟩
  · rw [Function.update_of_ne here] at member
    exact ⟨fun is => here is.1, w, member, old⟩

theorem flush_owes (x y : Space H G) (j : Fin k) : (s.flush c x).owes j y = s.owes j y ∨ j = c ∧ y = x := by
  unfold flush
  dsimp only
  by_cases here : j = c
  · subst here
    rw [Function.update_self]
    by_cases same : y = x
    · exact Or.inr ⟨rfl, same⟩
    · exact Or.inl (Function.update_of_ne same ..)
  · exact Or.inl (by rw [Function.update_of_ne here])

/-- No translation gets stale but by an update. -/
theorem Move.stale (move : Move cfg c s s') {j : Fin k} {x : Space H G} {v : Nat} (le : v ≤ s.version x)
    (stale : s'.Stale j x v) : s.Stale j x v := by
  cases move with
  | fill y =>
      obtain ⟨w, member, old⟩ := stale
      dsimp only at member
      by_cases here : j = c
      · subst here
        rw [Function.update_self] at member
        by_cases same : x = y
        · subst same
          rw [Function.update_self] at member
          rcases List.mem_cons.mp member with rfl | member
          · exact absurd le (Nat.not_le_of_lt old)
          · exact ⟨w, member, old⟩
        · rw [Function.update_of_ne same] at member
          exact ⟨w, member, old⟩
      · rw [Function.update_of_ne here] at member
        exact ⟨w, member, old⟩
  | @load e flush place =>
      cases flush with
      | false => exact stale
      | true => exact (flush_cached _ x v j stale).2
  | invept place is => exact (flush_cached _ x v j stale).2
  | @shootdown t is =>
      unfold Stale at stale ⊢
      rw [(shootdown_marks t).2.2.1] at stale
      exact stale
  | _ => exact stale

theorem Move.version (move : Move cfg c s s') (x : Space H G) : s.version x ≤ s'.version x := by
  cases move with
  | update y =>
      dsimp only
      by_cases same : x = y
      · subst same
        rw [Function.update_self]
        exact Nat.le_succ _
      · exact Nat.le_of_eq (Function.update_of_ne same _ _).symm
  | @load e flush place => cases flush <;> exact Nat.le_refl _
  | @shootdown t is => exact Nat.le_of_eq (congrFun (shootdown_marks t).2.2.2.1 _).symm
  | _ => exact Nat.le_refl _

/-- A pending flush is forgotten only when the space is flushed. -/
theorem Move.owes (move : Move cfg c s s') {j : Fin k} {x : Space H G} (owes : s.owes j x = true) :
    s'.owes j x = true ∨ ∀ v, ¬ s'.Stale j x v := by
  cases move with
  | @load e flush place =>
      cases flush with
      | false => exact Or.inl owes
      | true =>
          rcases flush_owes (c := c) (s := s) (.hst (cfg.hst e)) x j with same | here
          · exact Or.inl (same.trans owes)
          · exact Or.inr fun v stale => (flush_cached _ x v j stale).1 here
  | @invept g place is =>
      rcases flush_owes (c := c) (s := s) (.gst g) x j with same | here
      · exact Or.inl (same.trans owes)
      · exact Or.inr fun v stale => (flush_cached _ x v j stale).1 here
  | @sync t is phase =>
      refine Or.inl ?_
      show Function.update (s.owes j) t.space true x = true
      by_cases same : x = t.space
      · subst same
        exact Function.update_self ..
      · rw [Function.update_of_ne same]
        exact owes
  | @shootdown t is =>
      refine Or.inl ?_
      rw [(shootdown_marks t).2.1]
      exact owes
  | _ => exact Or.inl owes

theorem Move.marked (move : Move cfg c s s') {x : Space H G} {v : Nat} (marked : s.Marked x v) : s'.Marked x v := by
  refine ⟨Nat.le_trans marked.le (move.version x), fun j => ?_⟩
  rcases marked.marked j with owes | clean
  · exact (move.owes owes).imp_right fun clean => clean v
  · exact Or.inr fun stale => clean (move.stale marked.le stale)

theorem flushing_iff {j : Fin k} {x : Space H G} (cpu : s'.cpu j = s.cpu j)
    (gst : s'.gst (s.cpu j).current = s.gst (s.cpu j).current) : s'.Flushing cfg j x ↔ s.Flushing cfg j x := by
  unfold Flushing
  rw [cpu, gst]

/-- The mark of a CPU is cleared by this CPU, before it flushes. -/
theorem Move.tlb (move : Move cfg c s s') {j : Fin k} {x : Space H G} (bit : s.tlb j x = true) :
    s'.tlb j x = true ∨ j = c ∧ s'.Flushing cfg c x := by
  have cleared : ∀ {y : Space H G} {p : Place E}, (((s.clr c y).goto c p).tlb j x = true) ∨ j = c ∧ x = y := by
    intro y p
    show Function.update s.tlb c (Function.update (s.tlb c) y false) j x = true ∨ _
    by_cases here : j = c
    · subst here
      rw [Function.update_self]
      by_cases same : x = y
      · exact Or.inr ⟨rfl, same⟩
      · rw [Function.update_of_ne same]
        exact Or.inl bit
    · rw [Function.update_of_ne here]
      exact Or.inl bit
  cases move with
  | @clear e place _ =>
      refine cleared.imp_right fun ⟨here, same⟩ => ⟨here, Or.inl ⟨e, ?_, same.symm⟩⟩
      rw [goto, setCpu_self]
  | @clearGst g place is _ =>
      refine cleared.imp_right fun ⟨here, same⟩ => ⟨here, Or.inr ⟨?_, ?_⟩⟩
      · rw [goto, setCpu_self]
      · rw [goto, setCpu_self, same]
        exact congrArg (Option.map Space.gst) is
  | @load e flush place => cases flush <;> exact Or.inl bit
  | @sync t is phase =>
      refine Or.inl ?_
      show Function.update (s.tlb j) t.space true x = true
      by_cases same : x = t.space
      · subst same
        exact Function.update_self ..
      · rw [Function.update_of_ne same]
        exact bit
  | @shootdown t is =>
      rw [(shootdown_marks t).1]
      exact Or.inl bit
  | _ => exact Or.inl bit

/-- A flush that is about to happen does happen. -/
theorem Move.flushing (move : Move cfg c s s') (steady : Steady cfg c (s.cpu c)) {x : Space H G}
    (flushing : s.Flushing cfg c x) : s'.Flushing cfg c x ∨ s'.owes c x = false := by
  have idle : (s.cpu c).task.isSome = false := by
    rw [← Bool.not_eq_true]
    intro task
    have kernel := steady.busy task
    rcases flushing with ⟨e, place, -⟩ | ⟨place, -⟩
    · exact absurd (kernel.symm.trans place) nofun
    · exact absurd (kernel.symm.trans place) nofun
  -- in these places nothing happens but the flush
  have place : (∃ e, (s.cpu c).place = .load e true) ∨ (s.cpu c).place = .invalidate :=
    flushing.imp (fun ⟨e, place, _⟩ => ⟨e, place⟩) And.left
  have away : ∀ {p : Place E}, (∀ e, p ≠ .load e true) → p ≠ .invalidate → (s.cpu c).place ≠ p := by
    rintro p load invalidate rfl
    rcases place with ⟨e, is⟩ | is
    · exact load e is
    · exact invalidate is
  cases move with
  | stay => exact Or.inl flushing
  | fill y => exact Or.inl flushing
  | update y => exact Or.inl flushing
  | trap place => exact (place.elim (away nofun nofun) (away nofun nofun)).elim
  | rke place => exact (place.elim (away nofun nofun) fun is => is.elim (away nofun nofun) (away nofun nofun)).elim
  | hazard place => exact absurd place (away nofun nofun)
  | user free unscheduled host => exact absurd free.1 (away nofun nofun)
  | vmentry free unscheduled vcpu => exact absurd free.1 (away nofun nofun)
  | switch e sched free home => exact absurd free.1 (away nofun nofun)
  | clear place bit => exact absurd place (away nofun nofun)
  | skip place bit same => exact absurd place (away nofun nofun)
  | keep flush place bit => exact absurd place (away nofun nofun)
  | @load e flush at_ =>
      refine Or.inr ?_
      rcases flushing with ⟨e', place, rfl⟩ | ⟨place, -⟩
      · obtain ⟨rfl, rfl⟩ := Place.load.inj (at_.symm.trans place)
        show Function.update s.owes c (Function.update (s.owes c) _ false) c _ = false
        rw [Function.update_self, Function.update_self]
      · exact absurd (at_.symm.trans place) nofun
  | enter place => exact absurd place (away nofun nofun)
  | clearGst place is bit => exact absurd place (away nofun nofun)
  | keepGst place is bit => exact absurd place (away nofun nofun)
  | @invept g at_ is =>
      refine Or.inr ?_
      rcases flushing with ⟨e', place, -⟩ | ⟨-, gst⟩
      · exact absurd (at_.symm.trans place) nofun
      · rw [is] at gst
        obtain rfl := Option.some.inj gst
        show Function.update s.owes c (Function.update (s.owes c) _ false) c _ = false
        rw [Function.update_self, Function.update_self]
  | resume place => exact absurd place (away nofun nofun)
  | assign e g place home other => exact absurd place (away nofun nofun)
  | delegate y free => exact absurd free.1 (away nofun nofun)
  | sync is phase =>
      rw [is] at idle
      cases idle
  | shootdown is =>
      rw [is] at idle
      cases idle

/-- Only `sync` makes a flush pending, and marks the TLB. -/
theorem Move.owed (move : Move cfg c s s') {j : Fin k} {x : Space H G} (owes : s'.owes j x = true) :
    s.owes j x = true ∨ s'.tlb j x = true := by
  cases move with
  | @load e flush place =>
      cases flush with
      | false => exact Or.inl owes
      | true =>
          rcases flush_owes (c := c) (s := s) (.hst (cfg.hst e)) x j with same | ⟨rfl, rfl⟩
          · exact Or.inl (same.symm.trans owes)
          · have gone : Function.update s.owes j (Function.update (s.owes j) (.hst (cfg.hst e)) false) j
                (.hst (cfg.hst e)) = true := owes
            rw [Function.update_self, Function.update_self] at gone
            cases gone
  | @invept g place is =>
      rcases flush_owes (c := c) (s := s) (.gst g) x j with same | ⟨rfl, rfl⟩
      · exact Or.inl (same.symm.trans owes)
      · have gone : Function.update s.owes j (Function.update (s.owes j) (.gst g) false) j (.gst g) = true := owes
        rw [Function.update_self, Function.update_self] at gone
        cases gone
  | @sync t is phase =>
      have set : Function.update (s.owes j) t.space true x = true := owes
      by_cases same : x = t.space
      · subst same
        exact Or.inr (Function.update_self ..)
      · rw [Function.update_of_ne same] at set
        exact Or.inl set
  | @shootdown t is =>
      rw [(shootdown_marks t).2.1] at owes
      exact Or.inl owes
  | _ => exact Or.inl owes

/-- **No mark is lost.** -/
theorem Move.sound (move : Move cfg c s s') (sound : Sound cfg s) : Sound cfg s' := by
  refine ⟨fun j => ?_, fun j x owes => ?_⟩
  · by_cases here : j = c
    · subst here
      exact move.steady (sound.steady j)
    · rw [(move.other here).1]
      exact sound.steady j
  · rcases move.owed owes with before | bit
    · rcases sound.pending j x before with bit | flushing
      · rcases move.tlb bit with still | ⟨rfl, flushing⟩
        · exact Or.inl still
        · exact Or.inr flushing
      · refine Or.inr ?_
        by_cases here : j = c
        · subst here
          refine (move.flushing (sound.steady j) flushing).resolve_right fun gone => ?_
          rw [gone] at owes
          cases owes
        · exact (flushing_iff (move.other here).1 (move.gst (fun j => (sound.steady j).home) j)).mpr flushing
    · exact Or.inl bit

end State

/-! ## Who executes with which translations -/

/-- The EC whose code is executed next if no `make_current` looks at a mark before -/
def Cpu.runner (x : Cpu E H G) : Option E :=
  match x.place with
  | .user => some x.current
  | .kernel => if x.sched then none else some x.current
  | .load e false | .enter e => if x.sched then none else some e
  | _ => none

namespace State

/-- The CPU executes in the space, or will do so without a look at its mark. -/
def Runs (cfg : Config E H G k) (s : State E H G k) (c : Fin k) (x : Space H G) : Prop :=
  (∃ e, (s.cpu c).runner = some e ∧ cfg.vcpu e = false ∧ .hst (cfg.hst e) = x) ∨
    ((s.cpu c).place = .resume ∨ (s.cpu c).place = .guest) ∧ (s.gst (s.cpu c).current).map .gst = some x

/-- The CPU can use a translation from before the update number `v`. -/
def Exposed (cfg : Config E H G k) (s : State E H G k) (c : Fin k) (x : Space H G) (v : Nat) : Prop :=
  s.Stale c x v ∧ s.Runs cfg c x

theorem runs_iff {j : Fin k} {x : Space H G} (cpu : s'.cpu j = s.cpu j)
    (gst : s'.gst (s.cpu j).current = s.gst (s.cpu j).current) : s'.Runs cfg j x ↔ s.Runs cfg j x := by
  unfold Runs
  rw [cpu, gst]

/-- What holds of a space that is not marked -/
def Unmarked (cfg : Config E H G k) (s : State E H G k) (c : Fin k) (x : Space H G) : Prop :=
  s.tlb c x = false ∧ ¬ s.Flushing cfg c x

/-- After an `RKE` interrupt a CPU in a marked host space schedules. -/
theorem runs_rke (steady : Steady cfg c (s.cpu c))
    (place : (s.cpu c).place = .user ∨ (s.cpu c).place = .guest ∨ (s.cpu c).place = .kernel) {x : Space H G}
    (runs : (s.setCpu c fun y => { y with
      place := .kernel, rke := y.rke + 1, sched := y.sched || s.tlb c (.hst (s.cpu c).space) }).Runs cfg c x) :
    s.Runs cfg c x ∧ s.Unmarked cfg c x := by
  rcases runs with ⟨e, runner, host, rfl⟩ | ⟨guest, -⟩
  · rw [setCpu_self] at runner
    unfold Cpu.runner at runner
    dsimp only at runner
    split at runner
    · cases runner
    · rename_i unscheduled
      obtain rfl := Option.some.inj runner
      rw [Bool.or_eq_true, not_or] at unscheduled
      have loaded := steady.loaded
      have there : (s.cpu c).place = .user ∨ (s.cpu c).place = .kernel := by
        rcases place with place | place | place
        · exact Or.inl place
        · rw [steady.guests (by rw [place]; rfl)] at host
          cases host
        · exact Or.inr place
      have space : (s.cpu c).space = cfg.hst (s.cpu c).current := by
        unfold Cpu.Loaded at loaded
        rcases there with place | place <;> rw [place] at loaded <;> exact loaded
      refine ⟨Or.inl ⟨(s.cpu c).current, ?_, host, rfl⟩, ?_, ?_⟩
      · unfold Cpu.runner
        rcases there with place | place
        · rw [place]
        · rw [place]
          exact if_neg unscheduled.1
      · rw [space] at unscheduled
        exact Bool.not_eq_true _ ▸ unscheduled.2
      · rintro (⟨e, at_, -⟩ | ⟨at_, -⟩)
        · rcases there with place | place <;> exact absurd (place.symm.trans at_) nofun
        · rcases there with place | place <;> exact absurd (place.symm.trans at_) nofun
  · rw [setCpu_self] at guest
    rcases guest with guest | guest <;> cases guest

/-- A CPU comes to execute in a space only if this is not marked, or has just been flushed. -/
theorem Move.runs (move : Move cfg c s s') (steady : Steady cfg c (s.cpu c)) {x : Space H G} (runs : s'.Runs cfg c x) :
    s.Runs cfg c x ∨ s.Unmarked cfg c x ∨ s'.cached c x = [] := by
  cases move with
  | stay => exact Or.inl runs
  | fill y => exact Or.inl runs
  | update y => exact Or.inl runs
  | trap place =>
      rcases runs with ⟨e, runner, host, rfl⟩ | ⟨guest, -⟩
      · rw [goto, setCpu_self] at runner
        unfold Cpu.runner at runner
        dsimp only at runner
        split at runner
        · cases runner
        · obtain rfl := Option.some.inj runner
          rcases place with place | place
          · refine Or.inl (Or.inl ⟨_, ?_, host, rfl⟩)
            unfold Cpu.runner
            rw [place]
          · rw [steady.guests (by rw [place]; rfl)] at host
            cases host
      · rw [goto, setCpu_self] at guest
        rcases guest with guest | guest <;> cases guest
  | rke place => exact Or.inl (runs_rke steady place runs).1
  | hazard place =>
      rcases runs with ⟨e, runner, -⟩ | ⟨guest, -⟩
      · rw [setCpu_self] at runner
        unfold Cpu.runner at runner
        dsimp only at runner
        rw [place] at runner
        cases runner
      · rw [setCpu_self] at guest
        dsimp only at guest
        rw [place] at guest
        rcases guest with guest | guest <;> cases guest
  | user free unscheduled host =>
      rcases runs with ⟨e, runner, host, rfl⟩ | ⟨guest, -⟩
      · rw [goto, setCpu_self] at runner
        obtain rfl := Option.some.inj runner
        refine Or.inl (Or.inl ⟨_, ?_, host, rfl⟩)
        unfold Cpu.runner
        rw [free.1]
        exact if_neg (by rw [unscheduled]; exact Bool.false_ne_true)
      · rw [goto, setCpu_self] at guest
        rcases guest with guest | guest <;> cases guest
  | vmentry free unscheduled vcpu =>
      rcases runs with ⟨e, runner, -⟩ | ⟨guest, -⟩
      · rw [goto, setCpu_self] at runner
        cases runner
      · rw [goto, setCpu_self] at guest
        rcases guest with guest | guest <;> cases guest
  | switch e sched free home =>
      rcases runs with ⟨e, runner, -⟩ | ⟨guest, -⟩
      · rw [setCpu_self] at runner
        cases runner
      · rw [setCpu_self] at guest
        rcases guest with guest | guest <;> cases guest
  | clear place bit =>
      rcases runs with ⟨e, runner, -⟩ | ⟨guest, -⟩
      · rw [goto, setCpu_self] at runner
        cases runner
      · rw [goto, setCpu_self] at guest
        rcases guest with guest | guest <;> cases guest
  | @skip e place bit same =>
      rcases runs with ⟨e', runner, -, rfl⟩ | ⟨guest, -⟩
      · rw [goto, setCpu_self] at runner
        unfold Cpu.runner at runner
        dsimp only at runner
        split at runner
        · cases runner
        · obtain rfl := Option.some.inj runner
          exact Or.inr (Or.inl ⟨bit, by rintro (⟨_, at_, -⟩ | ⟨at_, -⟩) <;> exact absurd (place.symm.trans at_) nofun⟩)
      · rw [goto, setCpu_self] at guest
        rcases guest with guest | guest <;> cases guest
  | @keep e flush place bit =>
      rcases runs with ⟨e', runner, -, rfl⟩ | ⟨guest, -⟩
      · rw [goto, setCpu_self] at runner
        unfold Cpu.runner at runner
        cases flush with
        | true => cases runner
        | false =>
            dsimp only at runner
            split at runner
            · cases runner
            · obtain rfl := Option.some.inj runner
              exact Or.inr (Or.inl ⟨bit, by rintro (⟨_, at_, -⟩ | ⟨at_, -⟩) <;> exact absurd (place.symm.trans at_) nofun⟩)
      · rw [goto, setCpu_self] at guest
        rcases guest with guest | guest <;> cases guest
  | @load e flush place =>
      have cpu : (if flush = true then s.flush c (.hst (cfg.hst e)) else s).cpu = s.cpu := by
        cases flush <;> rfl
      rcases runs with ⟨e', runner, host, rfl⟩ | ⟨guest, -⟩
      · rw [State.load, setCpu_self, cpu] at runner
        unfold Cpu.runner at runner
        dsimp only at runner
        split at runner
        · cases runner
        · rename_i unscheduled
          obtain rfl := Option.some.inj runner
          cases flush with
          | true =>
              refine Or.inr (Or.inr ?_)
              show Function.update s.cached c (Function.update (s.cached c) _ []) c _ = []
              rw [Function.update_self, Function.update_self]
          | false =>
              refine Or.inl (Or.inl ⟨e, ?_, host, rfl⟩)
              unfold Cpu.runner
              rw [place]
              exact if_neg unscheduled
      · rw [State.load, setCpu_self] at guest
        rcases guest with guest | guest <;> cases guest
  | @enter e place =>
      rcases runs with ⟨e', runner, host, rfl⟩ | ⟨guest, -⟩
      · rw [setCpu_self] at runner
        unfold Cpu.runner at runner
        dsimp only at runner
        split at runner
        · cases runner
        · rename_i unscheduled
          obtain rfl := Option.some.inj runner
          refine Or.inl (Or.inl ⟨e, ?_, host, rfl⟩)
          unfold Cpu.runner
          rw [place]
          exact if_neg unscheduled
      · rw [setCpu_self] at guest
        rcases guest with guest | guest <;> cases guest
  | clearGst place is bit =>
      rcases runs with ⟨e, runner, -⟩ | ⟨guest, -⟩
      · rw [goto, setCpu_self] at runner
        cases runner
      · rw [goto, setCpu_self] at guest
        rcases guest with guest | guest <;> cases guest
  | @keepGst g place is bit =>
      rcases runs with ⟨e, runner, -⟩ | ⟨-, gst⟩
      · rw [goto, setCpu_self] at runner
        cases runner
      · rw [goto, setCpu_self] at gst
        change (s.gst (s.cpu c).current).map .gst = some x at gst
        rw [is] at gst
        obtain rfl := Option.some.inj gst
        exact Or.inr (Or.inl ⟨bit, by rintro (⟨_, at_, -⟩ | ⟨at_, -⟩) <;> exact absurd (place.symm.trans at_) nofun⟩)
  | @invept g place is =>
      rcases runs with ⟨e, runner, -⟩ | ⟨-, gst⟩
      · rw [goto, setCpu_self] at runner
        cases runner
      · rw [goto, setCpu_self] at gst
        change (s.gst (s.cpu c).current).map .gst = some x at gst
        rw [is] at gst
        obtain rfl := Option.some.inj gst
        refine Or.inr (Or.inr ?_)
        show Function.update s.cached c (Function.update (s.cached c) _ []) c _ = []
        rw [Function.update_self, Function.update_self]
  | resume place =>
      rcases runs with ⟨e, runner, -⟩ | ⟨-, gst⟩
      · rw [goto, setCpu_self] at runner
        cases runner
      · rw [goto, setCpu_self] at gst
        exact Or.inl (Or.inr ⟨Or.inl place, gst⟩)
  | assign e g place home away =>
      rcases runs with host | ⟨guest, -⟩
      · exact Or.inl (Or.inl host)
      · rcases guest with guest | guest <;> exact absurd (place.symm.trans guest) nofun
  | delegate y free =>
      unfold Runs at runs ⊢
      rw [setCpu_self] at runs
      exact Or.inl runs
  | sync is phase =>
      unfold Runs State.sync setPhase at runs
      rw [setCpu_self] at runs
      exact Or.inl runs
  | @shootdown t is =>
      obtain ⟨task, sched, grows, after⟩ := shootdown_cpu cfg c s t
      have gst : (s.shootdown cfg c t).gst (s.cpu c).current = s.gst (s.cpu c).current := by
        rw [(shootdown_marks t).2.2.2.2]
      have kernel : (s.cpu c).place = .kernel := steady.busy (by rw [is]; rfl)
      unfold Runs at runs
      rw [after] at runs
      rcases runs with ⟨e, runner, host, rfl⟩ | ⟨guest, -⟩
      · unfold Cpu.runner at runner
        dsimp only at runner
        rw [kernel] at runner
        dsimp only at runner
        split at runner
        · cases runner
        · rename_i unscheduled
          refine Or.inl (Or.inl ⟨e, ?_, host, rfl⟩)
          unfold Cpu.runner
          rw [kernel]
          refine (if_neg fun before => unscheduled (grows before)).trans runner
      · dsimp only at guest
        rw [kernel] at guest
        rcases guest with guest | guest <;> cases guest

theorem Marked.clean {x : Space H G} {v : Nat} (marked : s.Marked x v) (sound : Sound cfg s)
    (unmarked : s.Unmarked cfg c x) : ¬ s.Stale c x v := by
  refine (marked.marked c).resolve_left fun owes => ?_
  rcases sound.pending c x owes with bit | flushing
  · rw [unmarked.1] at bit
    cases bit
  · exact unmarked.2 flushing

/-- **A CPU that cannot use stale translations never can**, once they are marked. -/
theorem Move.exposed (move : Move cfg c s s') (sound : Sound cfg s) {j : Fin k} {x : Space H G} {v : Nat}
    (marked : s.Marked x v) (exposed : s'.Exposed cfg j x v) : s.Exposed cfg j x v := by
  obtain ⟨stale, runs⟩ := exposed
  have before := move.stale marked.le stale
  by_cases here : j = c
  · subst here
    rcases move.runs (sound.steady j) runs with runs | unmarked | flushed
    · exact ⟨before, runs⟩
    · exact absurd before (marked.clean sound unmarked)
    · obtain ⟨w, member, -⟩ := stale
      rw [flushed] at member
      cases member
  · exact ⟨before, (runs_iff (move.other here).1 (move.gst (fun j => (sound.steady j).home) j)).mp runs⟩

/-! ## The shootdown -/

/-- The shootdown has come past these CPUs. -/
def Before (cfg : Config E H G k) (s : State E H G k) (x : Space H G) (v i : Nat) : Prop :=
  ∀ j : Fin k, j.val < i → ¬ s.Exposed cfg j x v

/-- What a shootdown has achieved -/
def Progress (cfg : Config E H G k) (s : State E H G k) (t : Task E H G) : Prop :=
  match t.phase with
  | .update => True
  | .sample i | .count i => s.Marked t.space t.version ∧ s.Before cfg t.space t.version i
  | .look i e => s.Marked t.space t.version ∧ s.Before cfg t.space t.version i ∧ (cfg.cpu e).val = i ∧
      (¬ s.Exposed cfg (cfg.cpu e) t.space t.version ∨ s.Uses cfg e t.space)
  | .wait i cnt => s.Marked t.space t.version ∧ s.Before cfg t.space t.version i ∧
      ∀ j : Fin k, j.val = i → (s.cpu j).rke = cnt ∨ ¬ s.Exposed cfg j t.space t.version

structure Safe (cfg : Config E H G k) (P : Space H G → Prop) (s : State E H G k) : Prop where
  sound : Sound cfg s
  task : ∀ c t, (s.cpu c).task = some t → P t.space → s.Progress cfg t
  synced : ∀ x v, (x, v) ∈ s.synced → P x → s.Marked x v ∧ ∀ c, ¬ s.Exposed cfg c x v

theorem Move.before (move : Move cfg c s s') (sound : Sound cfg s) {x : Space H G} {v i : Nat} (marked : s.Marked x v)
    (before : s.Before cfg x v i) : s'.Before cfg x v i :=
  fun j past exposed => before j past (move.exposed sound marked exposed)

/-- The counter of a CPU changes when it is interrupted. -/
theorem Move.counter (move : Move cfg c s s') (sound : Sound cfg s) {j : Fin k} {x : Space H G} {v : Nat} (marked : s.Marked x v) :
    (s'.cpu j).rke = (s.cpu j).rke ∨ ¬ s'.Exposed cfg j x v := by
  by_cases here : j = c
  · subst here
    cases move with
    | rke place =>
        refine Or.inr fun exposed => ?_
        have unmarked := (runs_rke (sound.steady j) place exposed.2).2
        exact marked.clean sound unmarked exposed.1
    | @load e flush place =>
        refine Or.inl ?_
        rw [State.load, setCpu_self]
        cases flush <;> rfl
    | clear place bit => exact Or.inl (by rw [goto, setCpu_self]; rfl)
    | clearGst place is bit => exact Or.inl (by rw [goto, setCpu_self]; rfl)
    | invept place is => exact Or.inl (by rw [goto, setCpu_self]; rfl)
    | sync is phase => exact Or.inl (by rw [State.sync, setPhase, setCpu_self])
    | @shootdown t is =>
        obtain ⟨task, sched, -, after⟩ := shootdown_cpu cfg j s t
        exact Or.inl (by rw [after])
    | stay => exact Or.inl rfl
    | fill y => exact Or.inl rfl
    | update y => exact Or.inl rfl
    | assign e g place home away => exact Or.inl rfl
    | hazard place => exact Or.inl (by rw [setCpu_self])
    | switch e sched free home => exact Or.inl (by rw [setCpu_self])
    | enter place => exact Or.inl (by rw [setCpu_self])
    | delegate y free => exact Or.inl (by rw [setCpu_self])
    | _ => exact Or.inl (by rw [goto, setCpu_self])
  · exact Or.inl (by rw [(move.other here).1])

/-- The spaces of an EC change only while it cannot run. -/
theorem Move.uses (move : Move cfg c s s') (sound : Sound cfg s) {e : E} {x : Space H G} {v : Nat} (marked : s.Marked x v)
    (either : ¬ s.Exposed cfg (cfg.cpu e) x v ∨ s.Uses cfg e x) : ¬ s'.Exposed cfg (cfg.cpu e) x v ∨ s'.Uses cfg e x := by
  rcases either with hidden | uses
  · exact Or.inl fun exposed => hidden (move.exposed sound marked exposed)
  · cases move with
    | assign e' g place home away =>
        by_cases same : e = e'
        · subst same
          cases x with
          | hst h =>
              refine Or.inr (Or.inl ?_)
              rcases uses with host | guest
              · exact host
              · cases gst : s.gst e with
                | none =>
                    rw [gst] at guest
                    cases guest
                | some g' =>
                    rw [gst] at guest
                    cases guest
          | gst g' =>
              refine Or.inl ?_
              rintro ⟨-, ⟨e', -, -, host⟩ | ⟨guest, -⟩⟩
              · cases host
              · rw [home] at guest
                dsimp only at guest
                rw [place] at guest
                rcases guest with guest | guest <;> cases guest
        · refine Or.inr ?_
          unfold Uses
          dsimp only
          rw [Function.update_of_ne same]
          exact uses
    | @load e' flush place => cases flush <;> exact Or.inr uses
    | @shootdown t is =>
        refine Or.inr ?_
        unfold Uses
        rw [(shootdown_marks t).2.2.2.2]
        exact uses
    | _ => exact Or.inr uses

/-- The progress of another CPU's shootdown is kept. -/
theorem Move.progress (move : Move cfg c s s') (sound : Sound cfg s) {t : Task E H G} (progress : s.Progress cfg t) :
    s'.Progress cfg t := by
  obtain ⟨x, v, phase⟩ := t
  cases phase with
  | update => trivial
  | sample i => exact ⟨move.marked progress.1, move.before sound progress.1 progress.2⟩
  | count i => exact ⟨move.marked progress.1, move.before sound progress.1 progress.2⟩
  | look i e =>
      obtain ⟨marked, before, home, either⟩ := progress
      exact ⟨move.marked marked, move.before sound marked before, home, move.uses sound marked either⟩
  | wait i cnt =>
      obtain ⟨marked, before, either⟩ := progress
      refine ⟨move.marked marked, move.before sound marked before, fun j here => ?_⟩
      rcases move.counter sound marked (j := j) with same | hidden
      · refine (either j here).imp same.trans fun hidden exposed => ?_
        exact hidden (move.exposed sound marked exposed)
      · exact Or.inr hidden

end State

/-- The EC that is going to be current, if `make_current` has looked at the mark -/
def Cpu.coming (x : Cpu E H G) : Option E :=
  match x.place with
  | .load e false | .enter e => if x.sched then none else some e
  | _ => none

namespace State

/-- The CPU has decided not to flush a space any more, but its current EC is still that of another space. -/
def Raced (cfg : Config E H G k) (s : State E H G k) (c : Fin k) (x : Space H G) : Prop :=
  (∃ e ∈ (s.cpu c).coming, cfg.vcpu e = false ∧ .hst (cfg.hst e) = x) ∧ ¬ s.Uses cfg (s.cpu c).current x

instance (s : State E H G k) (c : Fin k) (x : Space H G) : Decidable (s.Raced cfg c x) := inferInstanceAs (Decidable (_ ∧ _))

/-- The space and the CPU that the next step of `shootdown` is about -/
def sampled (s : State E H G k) (c : Fin k) : Act E H G → Option (Space H G × Nat)
  | .shootdown =>
      match (s.cpu c).task with
      | some { space := x, phase := .sample i, .. } => some (x, i)
      | _ => none
  | _ => none

/-- The condition: a shootdown of a space looks at no CPU that is about to execute in it. -/
def Unraced (cfg : Config E H G k) (s : State E H G k) (a : Fin k × Act E H G) : Prop :=
  ∀ y ∈ s.sampled a.1 a.2, ∀ c : Fin k, c.val = y.2 → ¬ s.Raced cfg c y.1

instance (s : State E H G k) (a : Fin k × Act E H G) : Decidable (s.Unraced cfg a) :=
  inferInstanceAs (Decidable (∀ y ∈ s.sampled a.1 a.2, ∀ c : Fin k, c.val = y.2 → ¬ s.Raced cfg c y.1))

/-- What is executed next is executed now, or comes. -/
theorem coming_of_runner {x : Cpu E H G} {e : E} (runner : x.runner = some e) : e = x.current ∨ e ∈ x.coming := by
  unfold Cpu.runner at runner
  unfold Cpu.coming
  split at runner
  · exact Or.inl (Option.some.inj runner).symm
  · split at runner
    · cases runner
    · exact Or.inl (Option.some.inj runner).symm
  · rename_i place
    rw [place]
    exact Or.inr runner
  · rename_i place
    rw [place]
    exact Or.inr runner
  · cases runner

theorem phase_of {t t' : Task E H G} {p : Phase E} (task : ((s.setPhase c t p).cpu c).task = some t') :
    t' = { t with phase := p } := by
  unfold setPhase at task
  rw [setCpu_self] at task
  exact (Option.some.inj task).symm

/-- **The loop of `shootdown`** -/
theorem shootdown_progress (sound : Sound cfg s) {t : Task E H G} (progress : s.Progress cfg t)
    (is : (s.cpu c).task = some t) (unraced : ∀ i, t.phase = .sample i → ∀ j : Fin k, j.val = i → ¬ s.Raced cfg j t.space) :
    (∀ t', ((s.shootdown cfg c t).cpu c).task = some t' → (s.shootdown cfg c t).Progress cfg t') ∧
      ∀ x v, (x, v) ∈ (s.shootdown cfg c t).synced →
        (x, v) ∈ s.synced ∨ s.Marked x v ∧ ∀ j, ¬ s.Exposed cfg j x v := by
  have move : Move cfg c s (s.shootdown cfg c t) := .shootdown is
  have steady := sound.steady c
  obtain ⟨x, v, phase⟩ := t
  -- the step goes from one CPU to the next
  have advance : ∀ {i : Nat}, s.Marked x v → s.Before cfg x v i →
      (∀ j : Fin k, j.val = i → ¬ (s.shootdown cfg c ⟨x, v, phase⟩).Exposed cfg j x v) →
      (s.shootdown cfg c ⟨x, v, phase⟩).Marked x v ∧ (s.shootdown cfg c ⟨x, v, phase⟩).Before cfg x v (i + 1) := by
    intro i marked before hidden
    refine ⟨move.marked marked, fun j past => ?_⟩
    rcases Nat.lt_or_eq_of_le (Nat.le_of_lt_succ past) with past | here
    · exact move.before sound marked before j past
    · exact hidden j here
  cases phase with
  | update =>
      refine ⟨fun t' task => ?_, fun x v member => Or.inl member⟩
      obtain rfl := Option.some.inj (is.symm.trans task)
      trivial
  | sample i =>
      obtain ⟨marked, before⟩ := progress
      by_cases h : i < k
      · have result : s.shootdown cfg c ⟨x, v, .sample i⟩ = s.setPhase c ⟨x, v, .sample i⟩ (.look i (s.cpu ⟨i, h⟩).current) :=
          dif_pos h
        rw [result] at move ⊢
        refine ⟨fun t' task => ?_, fun x v member => Or.inl member⟩
        obtain rfl := phase_of task
        have home := (sound.steady ⟨i, h⟩).home
        refine ⟨move.marked marked, move.before sound marked before, congrArg Fin.val home, ?_⟩
        refine move.uses sound marked ?_
        rw [home]
        refine or_iff_not_imp_right.mpr fun other exposed => ?_
        rcases exposed.2 with ⟨e, runner, host, rfl⟩ | ⟨-, guest⟩
        · rcases coming_of_runner runner with rfl | coming
          · exact other (Or.inl rfl)
          · exact unraced i rfl _ rfl ⟨⟨e, coming, host, rfl⟩, other⟩
        · exact other (Or.inr guest)
      · have result : s.shootdown cfg c ⟨x, v, .sample i⟩ =
            { s.setCpu c fun x => { x with task := none } with synced := (x, v) :: s.synced } := dif_neg h
        rw [result]
        refine ⟨fun t' task => ?_, fun x' v' member => ?_⟩
        · have gone : ((s.setCpu c fun x => { x with task := none }).cpu c).task = some t' := task
          rw [setCpu_self] at gone
          cases gone
        · rcases List.mem_cons.mp member with same | member
          · obtain ⟨rfl, rfl⟩ := Prod.mk.inj same
            exact Or.inr ⟨marked, fun j => before j (Nat.lt_of_lt_of_le j.isLt (Nat.le_of_not_lt h))⟩
          · exact Or.inl member
  | look i e =>
      obtain ⟨marked, before, home, either⟩ := progress
      by_cases uses : s.Uses cfg e x
      · by_cases here : i = c
        · have result : s.shootdown cfg c ⟨x, v, .look i e⟩ =
              (s.setPhase c ⟨x, v, .look i e⟩ (.sample (i + 1))).setCpu c fun x => { x with sched := true } :=
            (if_pos uses).trans (if_pos here)
          refine ⟨fun t' task => ?_, fun x v member => Or.inl (by rw [result] at member; exact member)⟩
          have next : t' = ⟨x, v, .sample (i + 1)⟩ := by
            rw [result, setCpu_self] at task
            exact phase_of task
          subst next
          refine advance marked before fun j same exposed => ?_
          obtain rfl : j = c := Fin.ext (same.trans here)
          have kernel : (s.cpu j).place = .kernel := steady.busy (by rw [is]; rfl)
          rw [result] at exposed
          -- the CPU itself will schedule
          rcases exposed.2 with ⟨e', runner, -⟩ | ⟨guest, -⟩
          · rw [setCpu_self, setPhase, setCpu_self] at runner
            unfold Cpu.runner at runner
            dsimp only at runner
            rw [kernel] at runner
            cases runner
          · rw [setCpu_self, setPhase, setCpu_self] at guest
            dsimp only at guest
            rw [kernel] at guest
            rcases guest with guest | guest <;> cases guest
        · have result : s.shootdown cfg c ⟨x, v, .look i e⟩ = s.setPhase c ⟨x, v, .look i e⟩ (.count i) :=
            (if_pos uses).trans (if_neg here)
          rw [result] at move ⊢
          refine ⟨fun t' task => ?_, fun x v member => Or.inl member⟩
          obtain rfl := phase_of task
          exact ⟨move.marked marked, move.before sound marked before⟩
      · have result : s.shootdown cfg c ⟨x, v, .look i e⟩ = s.setPhase c ⟨x, v, .look i e⟩ (.sample (i + 1)) := if_neg uses
        refine ⟨fun t' task => ?_, fun x v member => Or.inl (by rw [result] at member; exact member)⟩
        have next : t' = ⟨x, v, .sample (i + 1)⟩ := by
          rw [result] at task
          exact phase_of task
        subst next
        refine advance marked before fun j same exposed => ?_
        obtain rfl : j = cfg.cpu e := Fin.ext (same.trans home.symm)
        exact either.resolve_right uses (move.exposed sound marked exposed)
  | count i =>
      obtain ⟨marked, before⟩ := progress
      by_cases h : i < k
      · have result : s.shootdown cfg c ⟨x, v, .count i⟩ = s.setPhase c ⟨x, v, .count i⟩ (.wait i (s.cpu ⟨i, h⟩).rke) := dif_pos h
        rw [result] at move ⊢
        refine ⟨fun t' task => ?_, fun x v member => Or.inl member⟩
        obtain rfl := phase_of task
        refine ⟨move.marked marked, move.before sound marked before, fun j same => Or.inl ?_⟩
        obtain rfl : j = ⟨i, h⟩ := Fin.ext same
        unfold setPhase
        by_cases own : (⟨i, h⟩ : Fin k) = c
        · subst own
          rw [setCpu_self]
        · rw [setCpu_other _ _ own]
      · have result : s.shootdown cfg c ⟨x, v, .count i⟩ = s := dif_neg h
        rw [result]
        refine ⟨fun t' task => ?_, fun x v member => Or.inl member⟩
        obtain rfl := Option.some.inj (is.symm.trans task)
        exact ⟨marked, before⟩
  | wait i cnt =>
      obtain ⟨marked, before, either⟩ := progress
      have stays : s.shootdown cfg c ⟨x, v, .wait i cnt⟩ = s →
          (∀ t', ((s.shootdown cfg c ⟨x, v, .wait i cnt⟩).cpu c).task = some t' →
            (s.shootdown cfg c ⟨x, v, .wait i cnt⟩).Progress cfg t') ∧
          ∀ x' v', (x', v') ∈ (s.shootdown cfg c ⟨x, v, .wait i cnt⟩).synced →
            (x', v') ∈ s.synced ∨ s.Marked x' v' ∧ ∀ j, ¬ s.Exposed cfg j x' v' := by
        intro result
        rw [result]
        refine ⟨fun t' task => ?_, fun x v member => Or.inl member⟩
        obtain rfl := Option.some.inj (is.symm.trans task)
        exact ⟨marked, before, either⟩
      by_cases h : i < k
      · by_cases same : (s.cpu ⟨i, h⟩).rke = cnt
        · exact stays ((dif_pos h).trans (if_pos same))
        · have result : s.shootdown cfg c ⟨x, v, .wait i cnt⟩ = s.setPhase c ⟨x, v, .wait i cnt⟩ (.sample (i + 1)) :=
            (dif_pos h).trans (if_neg same)
          refine ⟨fun t' task => ?_, fun x v member => Or.inl (by rw [result] at member; exact member)⟩
          have next : t' = ⟨x, v, .sample (i + 1)⟩ := by
            rw [result] at task
            exact phase_of task
          subst next
          refine advance marked before fun j here exposed => ?_
          obtain rfl : j = ⟨i, h⟩ := Fin.ext here
          exact (either _ here).resolve_left same (move.exposed sound marked exposed)
      · exact stays (dif_neg h)

/-! ## Runs -/

theorem next_task : ((s.next cfg c).cpu c).task = (s.cpu c).task ∧ (s.next cfg c).synced = s.synced := by
  unfold next
  split
  · unfold tstHst
    dsimp only
    split
    · exact ⟨by rw [goto, setCpu_self]; rfl, rfl⟩
    · split <;> exact ⟨by rw [goto, setCpu_self], rfl⟩
  · rename_i e flush place
    unfold State.load
    rw [setCpu_self]
    cases flush <;> exact ⟨rfl, rfl⟩
  · exact ⟨by rw [setCpu_self], rfl⟩
  · unfold tstGst
    split
    · exact ⟨rfl, rfl⟩
    · split
      · exact ⟨by rw [goto, setCpu_self]; rfl, rfl⟩
      · exact ⟨by rw [goto, setCpu_self], rfl⟩
  · unfold invalidate
    split
    · exact ⟨rfl, rfl⟩
    · exact ⟨by rw [goto, setCpu_self]; rfl, rfl⟩
  · exact ⟨by rw [goto, setCpu_self], rfl⟩
  · exact ⟨rfl, rfl⟩

/-- What a step does to the call of `delegate` on its CPU -/
theorem step_task (cfg : Config E H G k) (c : Fin k) (s : State E H G k) (a : Act E H G) :
    (((s.step cfg c a).cpu c).task = (s.cpu c).task ∧ (s.step cfg c a).synced = s.synced) ∨
    ((∃ x, ((s.step cfg c a).cpu c).task = some { space := x, version := 0, phase := .update }) ∧
      (s.step cfg c a).synced = s.synced) ∨
    (∃ t, s.step cfg c a = s.sync c t) ∨
    a = .shootdown ∧ ∃ t, (s.cpu c).task = some t ∧ s.step cfg c a = s.shootdown cfg c t := by
  cases a with
  | trap =>
      unfold step
      dsimp only
      split
      · exact Or.inl ⟨by rw [goto, setCpu_self], rfl⟩
      · exact Or.inl ⟨rfl, rfl⟩
  | fill x => exact Or.inl ⟨rfl, rfl⟩
  | rke =>
      unfold step handleIpi
      dsimp only
      split
      all_goals first | exact Or.inl ⟨by rw [setCpu_self], rfl⟩ | exact Or.inl ⟨rfl, rfl⟩
  | hazard =>
      unfold step
      dsimp only
      split
      · exact Or.inl ⟨by rw [setCpu_self], rfl⟩
      · exact Or.inl ⟨rfl, rfl⟩
  | ret =>
      unfold step
      dsimp only
      split
      · exact Or.inl ⟨by rw [goto, setCpu_self], rfl⟩
      · exact Or.inl ⟨rfl, rfl⟩
  | switch e schedule =>
      unfold step
      dsimp only
      split
      · exact Or.inl ⟨by rw [setCpu_self], rfl⟩
      · exact Or.inl ⟨rfl, rfl⟩
  | step => exact Or.inl next_task
  | assign e g =>
      unfold step
      dsimp only
      split <;> exact Or.inl ⟨rfl, rfl⟩
  | delegate x =>
      unfold step
      dsimp only
      split
      · refine Or.inr (Or.inl ⟨⟨x, ?_⟩, rfl⟩)
        rw [setCpu_self]
      · exact Or.inl ⟨rfl, rfl⟩
  | update =>
      unfold step
      dsimp only
      split <;> exact Or.inl ⟨rfl, rfl⟩
  | sync =>
      unfold step
      dsimp only
      split
      · exact Or.inr (Or.inr (Or.inl ⟨_, rfl⟩))
      · exact Or.inl ⟨rfl, rfl⟩
  | shootdown =>
      unfold step
      dsimp only
      split
      · rename_i t is
        exact Or.inr (Or.inr (Or.inr ⟨rfl, t, is, rfl⟩))
      · exact Or.inl ⟨rfl, rfl⟩

/-- `sync` marks all translations of the space. -/
theorem sync_progress {t t' : Task E H G} (task : ((s.sync c t).cpu c).task = some t') : (s.sync c t).Progress cfg t' := by
  have is : t' = { t with version := s.version t.space, phase := .sample 0 } := by
    unfold State.sync setPhase at task
    rw [setCpu_self] at task
    exact (Option.some.inj task).symm
  subst is
  refine ⟨⟨Nat.le_refl _, fun j => Or.inl ?_⟩, nofun⟩
  show Function.update (s.owes j) t.space true t.space = true
  exact Function.update_self ..

/-- `shootdown` is about one space. -/
theorem shootdown_space {t t' : Task E H G} (is : (s.cpu c).task = some t)
    (task : ((s.shootdown cfg c t).cpu c).task = some t') : t'.space = t.space := by
  have stay : (s.cpu c).task = some t' → t'.space = t.space := by
    intro task
    obtain rfl := Option.some.inj (is.symm.trans task)
    rfl
  have goes : ∀ {p}, ((s.setPhase c t p).cpu c).task = some t' → t'.space = t.space := by
    intro p task
    rw [phase_of task]
  unfold State.shootdown at task
  split at task
  · exact stay task
  · split at task
    · exact goes task
    · dsimp only at task
      rw [setCpu_self] at task
      cases task
  · split at task
    · split at task
      · rw [setCpu_self] at task
        exact goes task
      · exact goes task
    · exact goes task
  · split at task
    · exact goes task
    · exact stay task
  · split at task
    · split at task
      · exact stay task
      · exact goes task
    · exact stay task

/-- The only `sync` that returns is that of the task. -/
theorem shootdown_synced {t : Task E H G} {x : Space H G} {v : Nat} (member : (x, v) ∈ (s.shootdown cfg c t).synced) :
    (x, v) ∈ s.synced ∨ x = t.space := by
  unfold State.shootdown at member
  split at member
  · exact Or.inl member
  · split at member
    · exact Or.inl member
    · rcases List.mem_cons.mp member with same | old
      · exact Or.inr (congrArg Prod.fst same)
      · exact Or.inl old
  · split at member
    · split at member <;> exact Or.inl member
    · exact Or.inl member
  · split at member <;> exact Or.inl member
  · split at member
    · split at member <;> exact Or.inl member
    · exact Or.inl member

theorem step_safe {P : Space H G → Prop} (safe : Safe cfg P s) (a : Fin k × Act E H G)
    (unraced : ∀ y ∈ s.sampled a.1 a.2, P y.1 → ∀ c : Fin k, c.val = y.2 → ¬ s.Raced cfg c y.1) :
    Safe cfg P (s.step cfg a.1 a.2) := by
  obtain ⟨c, a⟩ := a
  have move := step_move cfg c s a
  -- the calls of `delegate` on other CPUs, and those that have returned
  have others : ∀ c' t, c' ≠ c → ((s.step cfg c a).cpu c').task = some t → P t.space → (s.step cfg c a).Progress cfg t := by
    intro c' t other task holds
    rw [(move.other other).1] at task
    exact move.progress safe.sound (safe.task c' t task holds)
  have returned : ∀ x v, s.Marked x v ∧ (∀ j, ¬ s.Exposed cfg j x v) →
      (s.step cfg c a).Marked x v ∧ ∀ j, ¬ (s.step cfg c a).Exposed cfg j x v := fun x v ⟨marked, hidden⟩ =>
    ⟨move.marked marked, fun j exposed => hidden j (move.exposed safe.sound marked exposed)⟩
  suffices own : (∀ t, ((s.step cfg c a).cpu c).task = some t → P t.space → (s.step cfg c a).Progress cfg t) ∧
      ∀ x v, (x, v) ∈ (s.step cfg c a).synced → P x → (x, v) ∈ s.synced ∨ s.Marked x v ∧ ∀ j, ¬ s.Exposed cfg j x v by
    refine ⟨move.sound safe.sound, fun c' t task holds => ?_, fun x v member holds => ?_⟩
    · by_cases here : c' = c
      · subst here
        exact own.1 t task holds
      · exact others c' t here task holds
    · exact returned x v ((own.2 x v member holds).elim (fun old => safe.synced x v old holds) id)
  rcases step_task cfg c s a with ⟨task, synced⟩ | ⟨⟨x, task⟩, synced⟩ | ⟨t, result⟩ | ⟨shoots, t, is, result⟩
  · rw [task, synced]
    exact ⟨fun t is holds => move.progress safe.sound (safe.task c t is holds), fun x v member _ => Or.inl member⟩
  · rw [task, synced]
    refine ⟨fun t is _ => ?_, fun x v member _ => Or.inl member⟩
    obtain rfl := Option.some.inj is
    trivial
  · rw [result]
    exact ⟨fun t' task _ => sync_progress task, fun x v member _ => Or.inl member⟩
  · rw [result]
    -- the task keeps its space, and what has returned is that space
    have space : ∀ t', ((s.shootdown cfg c t).cpu c).task = some t' → t'.space = t.space := fun t' => shootdown_space is
    have fresh : ∀ x v, (x, v) ∈ (s.shootdown cfg c t).synced → (x, v) ∈ s.synced ∨ x = t.space := fun x v => shootdown_synced
    have progress : P t.space → _ := fun holds => shootdown_progress safe.sound (safe.task c t is holds) is
      fun i phase j here => by
        obtain ⟨x, v, p⟩ := t
        obtain rfl : p = .sample i := phase
        refine unraced (x, i) ?_ holds j here
        unfold sampled
        rw [shoots, is]
        rfl
    refine ⟨fun t' task holds => (progress (space t' task ▸ holds)).1 t' task, fun x v member holds => ?_⟩
    rcases fresh x v member with old | rfl
    · exact Or.inl old
    · exact (progress holds).2 _ v member

theorem safe_boot (P : Space H G → Prop) (gst : E → Option G) : Safe cfg P (boot cfg gst) := by
  refine ⟨⟨fun c => ⟨cfg.idle_cpu c, nofun, rfl, nofun, nofun, nofun⟩, nofun⟩, nofun, nofun⟩

/-- No CPU executes with translations from before an update whose `sync` has returned. -/
def Shootdown (cfg : Config E H G k) (s : State E H G k) : Prop :=
  ∀ x v, (x, v) ∈ s.synced → ∀ c, s.Stale c x v →
    ¬ ((s.cpu c).place = .user ∧ .hst (cfg.hst (s.cpu c).current) = x) ∧
    ¬ ((s.cpu c).place = .guest ∧ (s.gst (s.cpu c).current).map .gst = some x)

/-- The same of the guest spaces only -/
def GuestShootdown (s : State E H G k) : Prop :=
  ∀ g v, (.gst g, v) ∈ s.synced → ∀ c, s.Stale c (.gst g) v → ¬ ((s.cpu c).place = .guest ∧ s.gst (s.cpu c).current = some g)

theorem Safe.shootdown (safe : Safe cfg (fun _ => True) s) : Shootdown cfg s := by
  intro x v returned c stale
  have hidden := (safe.synced x v returned trivial).2 c
  refine ⟨fun ⟨user, is⟩ => hidden ⟨stale, Or.inl ⟨(s.cpu c).current, ?_, (safe.sound.steady c).host user, is⟩⟩,
    fun ⟨guest, is⟩ => hidden ⟨stale, Or.inr ⟨Or.inr guest, is⟩⟩⟩
  unfold Cpu.runner
  rw [user]

/-- A guest space, whose mark a CPU tests after its EC has become current -/
def Space.IsGst (x : Space H G) : Prop := ∃ g, x = .gst g

theorem Safe.guestShootdown (safe : Safe cfg Space.IsGst s) : GuestShootdown s := by
  intro g v returned c stale ⟨guest, is⟩
  have hidden := (safe.synced (.gst g) v returned ⟨g, rfl⟩).2 c
  exact hidden ⟨stale, Or.inr ⟨Or.inr guest, by rw [is]; rfl⟩⟩

theorem runs_sound (gst : E → Option G) (acts : List (Fin k × Act E H G)) : Sound cfg ((boot cfg gst).run cfg acts) :=
  Along.foldl (I := Sound cfg) (G := fun _ _ => True) (fun s a sound _ => (step_move cfg a.1 s a.2).sound sound) acts _
    (safe_boot Space.IsGst gst).sound (Along.of_forall fun _ _ => trivial)

theorem runs_safe (gst : E → Option G) (acts : List (Fin k × Act E H G))
    (along : Along (fun a s => s.step cfg a.1 a.2) (Unraced cfg) (boot cfg gst) acts) :
    Safe cfg (fun _ => True) ((boot cfg gst).run cfg acts) :=
  Along.foldl (I := Safe cfg fun _ => True) (fun _ a safe unraced => step_safe safe a fun y is _ => unraced y is) acts _
    (safe_boot _ gst) along

/-- No shootdown of a guest space comes too early. -/
theorem runs_safe_gst (gst : E → Option G) (acts : List (Fin k × Act E H G)) :
    Safe cfg Space.IsGst ((boot cfg gst).run cfg acts) := by
  refine Along.foldl (I := Safe cfg Space.IsGst) (G := fun _ _ => True) (fun s a safe _ => step_safe safe a ?_) acts _
    (safe_boot _ gst) (Along.of_forall fun _ _ => trivial)
  rintro ⟨_, i⟩ - ⟨g, rfl⟩ c - ⟨⟨e, -, -, host⟩, -⟩
  cases host

/-- **Shootdown**: in every run no mark is lost and no CPU uses stale translations of a guest space, and none
uses stale translations of a host space if no shootdown looks at a CPU that has decided not to flush the space but is
not yet current in it. -/
theorem tlb_shootdown (cfg : Config E H G k) (gst : E → Option G) (acts : List (Fin k × Act E H G)) :
    Pending cfg ((boot cfg gst).run cfg acts) ∧ GuestShootdown ((boot cfg gst).run cfg acts) ∧
      (Along (fun a s => s.step cfg a.1 a.2) (Unraced cfg) (boot cfg gst) acts →
        Shootdown cfg ((boot cfg gst).run cfg acts)) :=
  ⟨(runs_sound gst acts).pending, (runs_safe_gst gst acts).guestShootdown, fun along => (runs_safe gst acts along).shootdown⟩

local instance : NeZero 2 := ⟨by decide⟩

/-- Two CPUs; the ECs 2 and 3 share the space 1, the idle ECs have the space 0. -/
def twoCpus : Config (Fin 4) (Fin 2) Empty 2 where
  hst := fun e => if e < 2 then 0 else 1
  vcpu := fun _ => false
  cpu := fun e => if e = 0 ∨ e = 2 then 0 else 1
  idle := fun c => if c = 0 then 0 else 1
  idle_cpu := by decide
  pcid := true

/-- Both ECs run, and EC 3 is preempted by the idle EC after it has used a translation. -/
def warmUp : List (Fin 2 × Act (Fin 4) (Fin 2) Empty) :=
  [(1, .switch 3 true), (1, .step), (1, .step), (1, .step), (1, .ret), (1, .fill (.hst 1)), (1, .trap), (1, .switch 1 true),
    (1, .step), (1, .step), (1, .step), (0, .switch 2 true), (0, .step), (0, .step), (0, .step), (0, .ret), (0, .trap)]

/-- EC 2 changes the space.  The shootdown looks at the other CPU twice: for its current EC and for the spaces of it. -/
def remap : List (Fin 2 × Act (Fin 4) (Fin 2) Empty) :=
  [(0, .sync), (0, .shootdown), (0, .shootdown), (0, .shootdown), (0, .shootdown), (0, .shootdown)]

/-- EC 3 is switched to, and its CPU has looked at the mark when EC 2 sets it. -/
def switched : List (Fin 2 × Act (Fin 4) (Fin 2) Empty) :=
  warmUp ++ [(0, .delegate (.hst 1)), (0, .update), (1, .switch 3 true), (1, .step)] ++ remap ++
    [(1, .step), (1, .step), (1, .ret)]

/-- EC 3 is in user mode when EC 2 sets the mark, and gets there again after it has been interrupted. -/
def interrupted : List (Fin 2 × Act (Fin 4) (Fin 2) Empty) :=
  warmUp ++ [(1, .switch 3 true), (1, .step), (1, .step), (1, .step), (1, .ret), (0, .delegate (.hst 1)), (0, .update)] ++
    remap ++ [(1, .rke), (0, .shootdown), (0, .shootdown), (1, .switch 3 true), (1, .step), (1, .step), (1, .step), (1, .ret)]

theorem tlb_shootdown_interrupted :
    (.hst 1, 1) ∈ ((boot twoCpus fun _ => none).run twoCpus interrupted).synced ∧
      (((boot twoCpus fun _ => none).run twoCpus interrupted).cpu 1).place = .user ∧
      Shootdown twoCpus ((boot twoCpus fun _ => none).run twoCpus interrupted) :=
  ⟨by decide, by decide, (tlb_shootdown twoCpus (fun _ => none) interrupted).2.2 (by decide)⟩

/-- **Not in all runs** -/
theorem not_shootdown : ¬ ∀ acts : List (Fin 2 × Act (Fin 4) (Fin 2) Empty),
    Shootdown twoCpus ((boot twoCpus fun _ => none).run twoCpus acts) := by
  intro all
  exact (all switched (.hst 1) 1 (by decide) 1 (by decide)).1 (by decide)

end State

end Nova.Kernel.Tlb
