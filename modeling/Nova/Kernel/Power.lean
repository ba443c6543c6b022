/-
# Nova.Kernel.Power — sleeping and waking up with all CPUs

`sys_ctrl_hw` accepts a transition (`Acpi::set_transition`) and makes every CPU go through
`Cpu::fini` on its way back to user mode.  There the CPUs meet at the counter
`Cpu::online`: the bootstrap processor performs the transition when all others are
offline, and after the platform woke up no CPU goes on before all are online again.

The state is what the CPUs share (the counter, `Acpi::trans`, the wake status bit of the
platform) and the place of each CPU.  A step is one access to what is shared; between two
steps of a CPU the others may do any number of steps.  `power` is the platform: it wakes up
from a sleep, or starts again.

The counter is a barrier that is used again and again, and `Hazard::SLEEP` is only cleared
by `Cpu::init`.  So three things are proved of all runs: as long as no S1 transition has been
performed, exactly the accepted transitions are performed, each with all CPUs prepared for it
(`transitions_performed`); a transition can still be performed exactly if no CPU waits at the
barrier of the last one while another has gone offline (`performable_iff`); after an S1
transition all CPUs keep `Hazard::SLEEP`, and the next transition that is performed is a reset
that nobody asked for (`s1_keeps_sleep`).
-/
import Mathlib.Algebra.BigOperators.Group.Finset.Basic
import Mathlib.Algebra.Order.BigOperators.Group.Finset
import Nova.Theory.Barriers

namespace Nova.Kernel.Power

open Nova.Theory.Barriers

set_option autoImplicit false

/-- `Acpi_fixed::Transition` -/
abbrev Transition := BitVec 16

/-- `Transition::state` -/
def Transition.state (t : Transition) : Nat := t.toNat % 8

/-- Where the code of a CPU stands.  The parameter is the transition that `Cpu::fini` has read. -/
inductive Pc
  /-- an application processor before it is started -/
  | off
  /-- the bootstrap processor in front of `Acpi::init` -/
  | init
  /-- in front of `Cpu::init` -/
  | boot
  /-- in front of `Cpu::online++`, in `bootstrap` or at the end of `Acpi::fini` -/
  | arrive (s : Option Transition)
  /-- polls for `Cpu::online == Cpu::count` -/
  | barrier (s : Option Transition)
  /-- in user mode, or in the kernel up to the check for hazards -/
  | user
  /-- in front of `Cpu::online--` -/
  | fini (s : Transition)
  /-- the bootstrap processor polls for `Cpu::online == 0` -/
  | offline (s : Transition)
  /-- the bootstrap processor in front of `Acpi_fixed::sleep` or `Acpi_fixed::reset` -/
  | act (s : Transition)
  /-- polls for the wake status bit -/
  | wake (s : Transition)
  /-- the bootstrap processor in front of `Acpi_fixed::wake_clr` -/
  | clear
  /-- the bootstrap processor in front of the end of `Acpi::clr_transition` -/
  | clearTrans
  deriving DecidableEq

structure Cpu where
  pc : Pc
  /-- `Hazard::SLEEP` -/
  sleep : Bool
  deriving DecidableEq

/-- `slept` is what the platform has been told to do and has not done yet.  `accepted` and
`performed` are bookkeeping: the transitions of successful calls of `sys_ctrl_hw`, and those for
which `Acpi_fixed::sleep` or `Acpi_fixed::reset` was called. -/
structure State (n : Nat) where
  online : Nat
  trans : Transition
  wakSts : Bool
  slept : Option Transition
  cpu : Fin n → Cpu
  accepted : List Transition
  performed : List Transition

/-- What does not change: `Cpu::bsp`, and the registers that the platform has -/
structure Platform (n : Nat) where
  bsp : Fin n
  canReset : Bool
  canSleep : Bool
  /-- `NUM_CPU` -/
  count_le : n ≤ 64

namespace Platform

variable {n : Nat} (P : Platform n)

/-- `Acpi_fixed::supported` -/
def supported (t : Transition) : Bool :=
  t.state == 7 && P.canReset || (t.state == 1 || t.state == 3 || t.state == 4 || t.state == 5) && P.canSleep

end Platform

/-- `BIT_RANGE (5, 1) & BIT (s.state())`: whether `Acpi::fini` calls `sleep` or `reset` -/
def sleeps (s : Transition) : Bool := 1 ≤ s.state && s.state ≤ 5

/-- `++` of an `unsigned` -/
def incr (x : Nat) : Nat := if x = 4294967295 then 0 else x + 1

/-- `--` of an `unsigned` -/
def decr (x : Nat) : Nat := if x = 0 then 4294967295 else x - 1

inductive Event (n : Nat)
  /-- the kernel code continues -/
  | go (c : Fin n)
  /-- `sys_ctrl_hw` for a transition -/
  | request (c : Fin n) (t : Transition)
  /-- `rke_handler`; a shootdown sends this interrupt as well -/
  | rke (c : Fin n)
  /-- the return to user mode, with `handle_hazard` -/
  | leave (c : Fin n)
  | power
  deriving DecidableEq

namespace State

variable {n : Nat} (P : Platform n)

def setCpu (c : Fin n) (x : Cpu) (m : State n) : State n := { m with cpu := Function.update m.cpu c x }

def goto (c : Fin n) (p : Pc) (m : State n) : State n := m.setCpu c { m.cpu c with pc := p }

/-- The first place of each CPU -/
def starts (c : Fin n) : Pc := if c = P.bsp then .init else .off

/-- The kernel has just been loaded. -/
def coldBoot (accepted performed : List Transition) : State n where
  online := 0
  trans := 0
  wakSts := false
  slept := none
  cpu := fun c => { pc := starts P c, sleep := false }
  accepted := accepted
  performed := performed

/-- `Cpu::init`; `Lapic::init` of the bootstrap processor starts the others. -/
def cpuInit (c : Fin n) (m : State n) : State n :=
  let m := if c = P.bsp then { m with
    cpu := fun d => if d ≠ c ∧ (m.cpu d).pc = .off then { m.cpu d with pc := .boot } else m.cpu d } else m
  m.setCpu c { pc := .arrive none, sleep := false }

/-- What follows the barrier -/
def past (c : Fin n) (s : Option Transition) : Pc :=
  match s with
  | none => .user
  | some _ => if c = P.bsp then .clear else .user

def go (c : Fin n) (m : State n) : State n :=
  match (m.cpu c).pc with
  | .off => m
  | .init => { m with wakSts := false, trans := 0 }.goto c .boot
  | .boot => m.cpuInit P c
  | .arrive s => { m with online := incr m.online }.goto c (.barrier s)
  | .barrier s => if m.online = n then m.goto c (past P c s) else m
  | .user => m
  | .fini s => { m with online := decr m.online }.goto c (if c = P.bsp then .offline s else .wake s)
  | .offline s => if m.online = 0 then m.goto c (.act s) else m
  | .act s => { m with slept := some s, performed := m.performed ++ [s] }.goto c (.wake s)
  | .wake s => if m.wakSts then m.goto c (.arrive (some s)) else m
  | .clear => { m with wakSts := false }.goto c .clearTrans
  | .clearTrans => { m with trans := 0 }.goto c .user

/-- `sys_ctrl_hw`, with `Acpi::set_transition` -/
def request (c : Fin n) (t : Transition) (m : State n) : State n :=
  if (m.cpu c).pc = .user ∧ P.supported t ∧ m.trans = 0 then
    { m with trans := t, accepted := m.accepted ++ [t] }.setCpu c { m.cpu c with sleep := true }
  else m

/-- `rke_handler` -/
def rke (c : Fin n) (m : State n) : State n :=
  if (m.cpu c).pc = .user ∧ m.trans.state ≠ 0 then m.setCpu c { m.cpu c with sleep := true } else m

/-- `handle_hazard`, up to `get_transition` in `Cpu::fini` -/
def leave (c : Fin n) (m : State n) : State n :=
  if (m.cpu c).pc = .user ∧ (m.cpu c).sleep then m.goto c (.fini m.trans) else m

/-- The platform does what it has been told: it wakes up in S1 with all CPUs where they were, in S2
and S3 with the contents of the memory, and it starts again otherwise. -/
def power (m : State n) : State n :=
  match m.slept with
  | none => m
  | some s =>
      if sleeps s then
        if P.canSleep then
          if s.state = 1 then { m with wakSts := true, slept := none }
          else if s.state ≤ 3 then
            { m with wakSts := true, slept := none, cpu := fun c => { m.cpu c with pc := starts P c } }
          else coldBoot P m.accepted m.performed
        else m
      else if P.canReset then coldBoot P m.accepted m.performed else m

def step (m : State n) : Event n → State n
  | .go c => m.go P c
  | .request c t => m.request P c t
  | .rke c => m.rke c
  | .leave c => m.leave c
  | .power => m.power P

/-- A run of all CPUs -/
def run (m : State n) (events : List (Event n)) : State n := events.foldl (step P) m

/-- The state in which the machine is switched on -/
def start : State n := coldBoot P [] []

variable {P} {m m' : State n} {c : Fin n}

@[simp] theorem setCpu_cpu (m : State n) (c d : Fin n) (x : Cpu) : (m.setCpu c x).cpu d = if d = c then x else m.cpu d :=
  Function.update_apply ..

@[simp] theorem goto_cpu (m : State n) (c d : Fin n) (p : Pc) :
    (m.goto c p).cpu d = if d = c then { m.cpu c with pc := p } else m.cpu d :=
  Function.update_apply ..

/-- The effects of a step -/
inductive Move (P : Platform n) (m : State n) : State n → Prop
  | stay : Move P m m
  | init {c : Fin n} : (m.cpu c).pc = .init → Move P m ({ m with wakSts := false, trans := 0 }.goto c .boot)
  | boot {c : Fin n} : (m.cpu c).pc = .boot → Move P m (m.cpuInit P c)
  | arrive {c : Fin n} {s : Option Transition} : (m.cpu c).pc = .arrive s →
      Move P m ({ m with online := incr m.online }.goto c (.barrier s))
  | pass {c : Fin n} {s : Option Transition} : (m.cpu c).pc = .barrier s → m.online = n → Move P m (m.goto c (past P c s))
  | fini {c : Fin n} {s : Transition} : (m.cpu c).pc = .fini s →
      Move P m ({ m with online := decr m.online }.goto c (if c = P.bsp then .offline s else .wake s))
  | alone {c : Fin n} {s : Transition} : (m.cpu c).pc = .offline s → m.online = 0 → Move P m (m.goto c (.act s))
  | act {c : Fin n} {s : Transition} : (m.cpu c).pc = .act s →
      Move P m ({ m with slept := some s, performed := m.performed ++ [s] }.goto c (.wake s))
  | wake {c : Fin n} {s : Transition} : (m.cpu c).pc = .wake s → m.wakSts = true → Move P m (m.goto c (.arrive (some s)))
  | clear {c : Fin n} : (m.cpu c).pc = .clear → Move P m ({ m with wakSts := false }.goto c .clearTrans)
  | clearTrans {c : Fin n} : (m.cpu c).pc = .clearTrans → Move P m ({ m with trans := 0 }.goto c .user)
  | request {c : Fin n} {t : Transition} : (m.cpu c).pc = .user → P.supported t = true → m.trans = 0 →
      Move P m ({ m with trans := t, accepted := m.accepted ++ [t] }.setCpu c { m.cpu c with sleep := true })
  | rke {c : Fin n} : (m.cpu c).pc = .user → m.trans.state ≠ 0 → Move P m (m.setCpu c { m.cpu c with sleep := true })
  | leave {c : Fin n} : (m.cpu c).pc = .user → (m.cpu c).sleep = true → Move P m (m.goto c (.fini m.trans))
  | resume {s : Transition} : m.slept = some s → s.state = 1 → Move P m { m with wakSts := true, slept := none }
  | restore {s : Transition} : m.slept = some s → s.state ≠ 1 →
      Move P m { m with wakSts := true, slept := none, cpu := fun c => { m.cpu c with pc := starts P c } }
  | restart {s : Transition} : m.slept = some s → s.state ≠ 1 → Move P m (coldBoot P m.accepted m.performed)

theorem move_go (m : State n) (c : Fin n) : Move P m (m.go P c) := by
  unfold go
  split
  · exact .stay
  · rename_i pc
    exact .init pc
  · rename_i pc
    exact .boot pc
  · rename_i s pc
    exact .arrive pc
  · rename_i s pc
    split
    · rename_i full
      exact .pass pc full
    · exact .stay
  · exact .stay
  · rename_i s pc
    exact .fini pc
  · rename_i s pc
    split
    · rename_i none
      exact .alone pc none
    · exact .stay
  · rename_i s pc
    exact .act pc
  · rename_i s pc
    split
    · rename_i set
      exact .wake pc set
    · exact .stay
  · rename_i pc
    exact .clear pc
  · rename_i pc
    exact .clearTrans pc

theorem move_power (m : State n) : Move P m (m.power P) := by
  unfold power
  split
  · exact .stay
  · rename_i s slept
    split
    · split
      · split
        · rename_i one
          exact .resume slept one
        · split
          · rename_i other _
            exact .restore slept other
          · rename_i other _
            exact .restart slept other
      · exact .stay
    · rename_i resets
      split
      · refine .restart slept fun one => resets ?_
        rw [sleeps, one]
        rfl
      · exact .stay

/-- **Every step is one of the listed moves.** -/
theorem step_move (m : State n) (e : Event n) : Move P m (m.step P e) := by
  cases e with
  | go c => exact move_go m c
  | request c t =>
      show Move P m (m.request P c t)
      unfold request
      split
      · rename_i guard
        exact .request guard.1 guard.2.1 guard.2.2
      · exact .stay
  | rke c =>
      show Move P m (m.rke c)
      unfold rke
      split
      · rename_i guard
        exact .rke guard.1 guard.2
      · exact .stay
  | leave c =>
      show Move P m (m.leave c)
      unfold leave
      split
      · rename_i guard
        exact .leave guard.1 guard.2
      · exact .stay
  | power => exact move_power m

end State

/-! ## Starting and running -/

namespace Pc

/-- Before the arrival at the barrier of `bootstrap` -/
def booting : Pc → Bool
  | off | init | boot | arrive none => true
  | _ => false

/-- Before `Cpu::init` -/
def unborn : Pc → Bool
  | off | init | boot => true
  | _ => false

/-- Counted by `Cpu::online` -/
def counted : Pc → Bool
  | barrier _ | user | fini _ | clear | clearTrans => true
  | _ => false

/-- Between the wake status bit and user mode -/
def late : Pc → Bool
  | arrive (some _) | barrier (some _) | clear | clearTrans => true
  | _ => false

/-- Only for the bootstrap processor -/
def acting : Pc → Bool
  | offline _ | act _ => true
  | _ => false

/-- After `Cpu::online--` -/
def down : Pc → Bool
  | offline _ | act _ | wake _ => true
  | _ => false

/-- The CPU does not have a transition of `sys_ctrl_hw`, where `t` is the value of `Acpi::trans`. -/
def Unasked (t : Transition) : Pc → Prop
  | user => t = 0
  | fini s | offline s | act s => s = 0
  | _ => True

theorem Unasked.zero {t : Transition} {p : Pc} (unasked : p.Unasked t) : p.Unasked 0 := by
  cases p with
  | user => exact rfl
  | fini s => exact unasked
  | offline s => exact unasked
  | act s => exact unasked
  | _ => trivial

theorem of_down {p : Pc} (down : p.down = true) : p.booting = false ∧ p.counted = false ∧ p ≠ .barrier none := by
  cases p <;> first | exact ⟨rfl, rfl, nofun⟩ | cases down

end Pc

/-- Counted by `Cpu::online` -/
def Cpu.counted (x : Cpu) : Bool := x.pc.counted

/-- How many steps the CPU has to do before the transition can be performed -/
def Cpu.steps (x : Cpu) : Nat :=
  match x.pc with
  | .barrier _ => 5
  | .user => if x.sleep then 3 else 4
  | .fini _ => 2
  | .offline _ => 1
  | _ => 0

/-- No S1 transition -/
def NoS1 (l : List Transition) : Prop := ∀ t ∈ l, t.state ≠ 1

/-- The CPU is past `bootstrap`, or in its barrier, and only sleeps in the transition `t`. -/
def Runs {n : Nat} (P : Platform n) (t : Transition) (c : Fin n) (x : Cpu) : Prop :=
  (x.sleep = true → t ≠ 0) ∧
    match x.pc with
    | .barrier none | .user => True
    | .fini s | .wake s => s = t ∧ x.sleep = true
    | .offline s | .act s => s = t ∧ x.sleep = true ∧ c = P.bsp
    | _ => False

section Runs

variable {n : Nat} {P : Platform n} {t s : Transition} {c : Fin n} {x : Cpu}

theorem Runs.fini (runs : Runs P t c x) (pc : x.pc = .fini s) : s = t ∧ x.sleep = true ∧ t ≠ 0 := by
  rw [Runs, pc] at runs
  exact ⟨runs.2.1, runs.2.2, runs.1 runs.2.2⟩

theorem Runs.wake (runs : Runs P t c x) (pc : x.pc = .wake s) : s = t ∧ x.sleep = true ∧ t ≠ 0 := by
  rw [Runs, pc] at runs
  exact ⟨runs.2.1, runs.2.2, runs.1 runs.2.2⟩

theorem Runs.offline (runs : Runs P t c x) (pc : x.pc = .offline s) : s = t ∧ x.sleep = true ∧ t ≠ 0 ∧ c = P.bsp := by
  rw [Runs, pc] at runs
  exact ⟨runs.2.1, runs.2.2.1, runs.1 runs.2.2.1, runs.2.2.2⟩

theorem Runs.act (runs : Runs P t c x) (pc : x.pc = .act s) : s = t ∧ x.sleep = true ∧ t ≠ 0 ∧ c = P.bsp := by
  rw [Runs, pc] at runs
  exact ⟨runs.2.1, runs.2.2.1, runs.1 runs.2.2.1, runs.2.2.2⟩

/-- Where the CPU can be -/
theorem Runs.place (runs : Runs P t c x) : x.pc = .barrier none ∨ x.pc = .user ∨
    ((x.pc = .fini t ∨ x.pc = .wake t ∨ (x.pc = .offline t ∨ x.pc = .act t) ∧ c = P.bsp) ∧ x.sleep = true ∧ t ≠ 0) := by
  obtain ⟨flag, place⟩ := runs
  split at place
  · rename_i pc
    exact Or.inl pc
  · rename_i pc
    exact Or.inr (Or.inl pc)
  · rename_i s pc
    obtain ⟨rfl, asleep⟩ := place
    exact Or.inr (Or.inr ⟨Or.inl pc, asleep, flag asleep⟩)
  · rename_i s pc
    obtain ⟨rfl, asleep⟩ := place
    exact Or.inr (Or.inr ⟨Or.inr (Or.inl pc), asleep, flag asleep⟩)
  · rename_i s pc
    obtain ⟨rfl, asleep, here⟩ := place
    exact Or.inr (Or.inr ⟨Or.inr (Or.inr ⟨Or.inl pc, here⟩), asleep, flag asleep⟩)
  · rename_i s pc
    obtain ⟨rfl, asleep, here⟩ := place
    exact Or.inr (Or.inr ⟨Or.inr (Or.inr ⟨Or.inr pc, here⟩), asleep, flag asleep⟩)
  · exact place.elim

/-- The other places are not reached before an S1 transition. -/
theorem Runs.started (runs : Runs P t c x) : x.pc.late = false ∧ x.pc.booting = false := by
  rcases runs.place with pc | pc | ⟨pc | pc | ⟨pc | pc, -⟩, -⟩ <;> rw [pc] <;> exact ⟨rfl, rfl⟩

theorem Runs.of_zero (runs : Runs P 0 c x) (t : Transition) : Runs P t c x := by
  obtain ⟨flag, place⟩ := runs
  have awake : x.sleep ≠ true := fun is => flag is rfl
  refine ⟨fun is => absurd is awake, ?_⟩
  split at place
  · trivial
  · trivial
  · exact absurd place.2 awake
  · exact absurd place.2 awake
  · exact absurd place.2.1 awake
  · exact absurd place.2.1 awake
  · exact place.elim

end Runs

namespace State

variable {n : Nat}

/-- The CPUs start, or start again after a sleep. -/
structure Boot (P : Platform n) (m : State n) : Prop where
  places : ∀ c, (m.cpu c).pc.booting = true ∨ (m.cpu c).pc = .barrier none
  early : ∃ c, (m.cpu c).pc.booting = true
  counts : Counts Cpu.counted m.cpu m.online
  awake : m.slept = none
  trans : m.trans ≠ 0 ∨ m.wakSts = true → (m.cpu P.bsp).pc = .init
  alone : ∀ c, (m.cpu c).pc = .init → c = P.bsp
  flags : ∀ c, (m.cpu c).sleep = true → (m.cpu c).pc.unborn = true
  ledger : m.accepted = m.performed
  noS1 : NoS1 m.performed

/-- All CPUs have started. -/
structure Up (P : Platform n) (m : State n) : Prop where
  places : ∀ c, Runs P m.trans c (m.cpu c)
  counts : Counts Cpu.counted m.cpu m.online
  wakSts : m.wakSts = false
  slept : ∀ s, m.slept = some s → ∀ c, (m.cpu c).pc = .wake s
  wakes : ∀ s, (m.cpu P.bsp).pc = .wake s → m.slept = some s
  acts : ∀ s, (m.cpu P.bsp).pc = .act s → ∀ c, c ≠ P.bsp → (m.cpu c).pc = .wake s
  ledger : m.accepted = m.performed ++ if m.trans ≠ 0 ∧ m.slept = none then [m.trans] else []
  valid : m.trans ≠ 0 → P.supported m.trans = true
  noS1 : (m.slept = none → NoS1 m.performed) ∧ ∀ s, m.slept = some s → ∃ p, m.performed = p ++ [s] ∧ NoS1 p

variable {P : Platform n} {m m' : State n} {c : Fin n}

theorem boot_cold (P : Platform n) {l : List Transition} (noS1 : NoS1 l) : Boot P (coldBoot P l l) where
  places := by
    intro c
    left
    show (starts P c).booting = true
    unfold starts
    split <;> rfl
  early := ⟨P.bsp, by show (starts P P.bsp).booting = true; rw [starts, if_pos rfl]; rfl⟩
  counts := counts_zero fun c => by
    show (starts P c).counted = false
    unfold starts
    split <;> rfl
  awake := rfl
  trans := by
    rintro (trans | wakSts)
    · exact absurd rfl trans
    · cases wakSts
  alone := by
    intro c is
    by_contra other
    have is : starts P c = .init := is
    rw [starts, if_neg other] at is
    cases is
  flags := by rintro c ⟨⟩
  ledger := rfl
  noS1 := noS1

/-- `Cpu::online` does not overflow. -/
theorem incr_eq (P : Platform n) {k : Nat} (small : k ≤ n) : incr k = k + 1 := by
  have bound := P.count_le
  exact if_neg (by omega)

theorem decr_eq {k : Nat} (some : 0 < k) : decr k = k - 1 := if_neg (Nat.ne_of_gt some)

theorem counts_le {x : Nat} (counts : Counts Cpu.counted m.cpu x) : x ≤ n := by
  have le := counts.le
  rwa [Fintype.card_fin] at le

theorem Boot.not_full (boot : Boot P m) : m.online < n := by
  obtain ⟨c, booting⟩ := boot.early
  have out : (m.cpu c).counted = false := by
    unfold Cpu.counted
    cases pc : (m.cpu c).pc <;> rw [pc] at booting <;> first | rfl | cases booting
  have less := boot.counts.lt out
  rwa [Fintype.card_fin] at less

/-- A CPU goes on before the barrier. -/
theorem Boot.update (boot : Boot P m) {x : Cpu} (cpu : m'.cpu = Function.update m.cpu c x) (online : m'.online = m.online)
    (slept : m'.slept = m.slept) (lists : m'.accepted = m.accepted ∧ m'.performed = m.performed)
    (before : (m.cpu c).pc.booting = true) (after : x.pc.booting = true)
    (trans : m'.trans ≠ 0 ∨ m'.wakSts = true → (m'.cpu P.bsp).pc = .init) (alone : x.pc = .init → c = P.bsp)
    (flags : x.sleep = true → x.pc.unborn = true) : Boot P m' := by
  have cpus : ∀ d, m'.cpu d = if d = c then x else m.cpu d := fun d => by rw [cpu, Function.update_apply]
  have uncounted : ∀ y : Cpu, y.pc.booting = true → y.counted = false := by
    intro y is
    unfold Cpu.counted
    cases pc : y.pc <;> rw [pc] at is <;> first | rfl | cases is
  refine ⟨fun d => ?_, ⟨c, by rw [cpus, if_pos rfl]; exact after⟩, ?_, slept.trans boot.awake, trans, fun d is => ?_,
    fun d is => ?_, by rw [lists.1, lists.2]; exact boot.ledger, by rw [lists.2]; exact boot.noS1⟩
  · rw [cpus]
    split
    · exact Or.inl after
    · exact boot.places d
  · rw [cpu, online]
    exact boot.counts.same ((uncounted x after).trans (uncounted _ before).symm)
  · rw [cpus] at is
    split at is
    · rename_i here
      rw [here]
      exact alone is
    · exact boot.alone d is
  · rw [cpus] at is ⊢
    split at is
    · rename_i here
      rw [if_pos here]
      exact flags is
    · rename_i other
      rw [if_neg other]
      exact boot.flags d is

/-- The bootstrap processor starts the other ones. -/
theorem Boot.others (boot : Boot P m) (here : (m.cpu P.bsp).pc = .boot) : Boot P { m with
    cpu := fun d => if d ≠ P.bsp ∧ (m.cpu d).pc = .off then { m.cpu d with pc := .boot } else m.cpu d } where
  places := by
    intro d
    dsimp only
    split
    · exact Or.inl rfl
    · exact boot.places d
  early := ⟨P.bsp, by simp [here, Pc.booting]⟩
  counts := by
    refine boot.counts.congr fun d => ?_
    dsimp only
    split
    · rename_i off
      simp only [Cpu.counted, off.2]
      rfl
    · rfl
  awake := boot.awake
  trans := by
    intro set
    have is := boot.trans set
    rw [here] at is
    cases is
  alone := by
    intro d is
    dsimp only at is
    split at is
    · cases is
    · exact boot.alone d is
  flags := by
    intro d is
    dsimp only at is ⊢
    split
    · rfl
    · rename_i other
      rw [if_neg other] at is
      exact boot.flags d is
  ledger := boot.ledger
  noS1 := boot.noS1

theorem Boot.cpuInit (boot : Boot P m) (pc : (m.cpu c).pc = .boot) : Boot P (m.cpuInit P c) := by
  have arrives : ∀ m₁ : State n, Boot P m₁ → (m₁.cpu c).pc = .boot → (m₁.trans ≠ 0 ∨ m₁.wakSts = true → c ≠ P.bsp) →
      Boot P (m₁.setCpu c { pc := .arrive none, sleep := false }) := by
    intro m₁ boot₁ pc₁ other
    refine boot₁.update (c := c) rfl rfl rfl ⟨rfl, rfl⟩ (by rw [pc₁]; rfl) rfl (fun set => ?_) (by rintro ⟨⟩) (by rintro ⟨⟩)
    rw [setCpu_cpu, if_neg (Ne.symm (other set))]
    exact boot₁.trans set
  have other : m.trans ≠ 0 ∨ m.wakSts = true → c ≠ P.bsp := by
    rintro set rfl
    have is := boot.trans set
    rw [pc] at is
    cases is
  unfold State.cpuInit
  dsimp only
  split
  · rename_i here
    subst here
    exact arrives _ (boot.others pc) (by simp [pc]) other
  · exact arrives m boot pc other

theorem Boot.arrive (boot : Boot P m) (pc : (m.cpu c).pc = .arrive none) :
    Boot P ({ m with online := incr m.online }.goto c (.barrier none)) ∨
      Up P ({ m with online := incr m.online }.goto c (.barrier none)) := by
  generalize made : State.goto c (.barrier none) _ = m'
  have cpus : ∀ d, m'.cpu d = if d = c then { m.cpu c with pc := .barrier none } else m.cpu d := fun d => by
    rw [← made, goto_cpu]
  have counts : Counts Cpu.counted m'.cpu m'.online := by
    have entered := boot.counts.enter (i := c) (x := { m.cpu c with pc := .barrier none }) (by simp only [Cpu.counted, pc]; rfl) rfl
    have online : m'.online = m.online + 1 := by rw [← made]; exact incr_eq P (counts_le boot.counts)
    rw [online, ← made]
    exact entered
  have kept : m'.trans = m.trans ∧ m'.wakSts = m.wakSts ∧ m'.slept = m.slept ∧ m'.accepted = m.accepted ∧
      m'.performed = m.performed := by
    rw [← made]
    exact ⟨rfl, rfl, rfl, rfl, rfl⟩
  have awake : (m.cpu c).sleep = false := by
    cases flag : (m.cpu c).sleep with
    | false => rfl
    | true =>
        have early := boot.flags c flag
        rw [pc] at early
        cases early
  have sleeps : ∀ d, (m'.cpu d).sleep = (m.cpu d).sleep := fun d => by
    rw [cpus]
    split
    · rename_i here
      rw [here]
    · rfl
  have places : ∀ d, (m'.cpu d).pc.booting = true ∨ (m'.cpu d).pc = .barrier none := fun d => by
    rw [cpus]
    split
    · exact Or.inr rfl
    · exact boot.places d
  have others : ∀ d, d ≠ c → m'.cpu d = m.cpu d := fun d other => by rw [cpus, if_neg other]
  by_cases more : ∃ d, (m'.cpu d).pc.booting = true
  · left
    refine ⟨places, more, counts, kept.2.2.1.trans boot.awake, fun set => ?_, fun d is => ?_, fun d is => ?_, ?_, ?_⟩
    · rw [kept.1, kept.2.1] at set
      have is := boot.trans set
      rw [others]
      · exact is
      · rintro rfl
        rw [pc] at is
        cases is
    · rw [cpus] at is
      split at is
      · cases is
      · exact boot.alone d is
    · rw [sleeps] at is
      have other : d ≠ c := by
        rintro rfl
        rw [awake] at is
        cases is
      rw [others d other]
      exact boot.flags d is
    · rw [kept.2.2.2.1, kept.2.2.2.2]
      exact boot.ledger
    · rw [kept.2.2.2.2]
      exact boot.noS1
  · -- `c` was the last one
    right
    have all : ∀ d, (m'.cpu d).pc = .barrier none := fun d => (places d).resolve_left fun is => more ⟨d, is⟩
    have clear : ¬ (m.trans ≠ 0 ∨ m.wakSts = true) := by
      intro set
      have is := boot.trans set
      have last := all P.bsp
      rw [cpus] at last
      split at last
      · rename_i here
        rw [here, pc] at is
        cases is
      · rw [last] at is
        cases is
    have trans : m.trans = 0 := not_not.mp fun set => clear (Or.inl set)
    have awakes : ∀ d, (m'.cpu d).sleep = false := by
      intro d
      rw [sleeps]
      cases flag : (m.cpu d).sleep with
      | false => rfl
      | true =>
          have early := boot.flags d flag
          by_cases here : d = c
          · rw [here, pc] at early
            cases early
          · rw [← others d here, all] at early
            cases early
    have wakSts : m.wakSts = false := Bool.eq_false_iff.mpr fun set => clear (Or.inr set)
    refine ⟨fun d => ?_, counts, kept.2.1.trans wakSts, fun s is => ?_, fun s is => ?_, fun s is => ?_, ?_, fun set => ?_,
      fun _ => ?_, fun s is => ?_⟩
    · unfold Runs
      rw [all, awakes]
      exact ⟨nofun, trivial⟩
    · rw [kept.2.2.1, boot.awake] at is
      cases is
    · rw [all] at is
      cases is
    · rw [all] at is
      cases is
    · rw [kept.2.2.2.1, kept.2.2.2.2, kept.1, if_neg fun set => set.1 trans, List.append_nil]
      exact boot.ledger
    · exact absurd (kept.1.trans trans) set
    · rw [kept.2.2.2.2]
      exact boot.noS1
    · rw [kept.2.2.1, boot.awake] at is
      cases is

theorem Boot.move (boot : Boot P m) (move : Move P m m') : Boot P m' ∨ Up P m' := by
  -- all other moves are of CPUs that have passed the barrier, or of a platform that sleeps
  have late : ∀ {c : Fin n} {q : Pc}, (m.cpu c).pc = q → q.booting = false → q ≠ .barrier none → False := by
    intro c q pc early other
    rcases boot.places c with booting | barrier
    · rw [pc, early] at booting
      cases booting
    · exact other (pc.symm.trans barrier)
  have asleep : ∀ {s : Transition}, m.slept ≠ some s := by
    intro s is
    rw [boot.awake] at is
    cases is
  cases move with
  | stay => exact Or.inl boot
  | @init c pc =>
      refine Or.inl (boot.update (c := c) rfl rfl rfl ⟨rfl, rfl⟩ (by rw [pc]; rfl) rfl (fun set => ?_) (by rintro ⟨⟩) fun _ => rfl)
      rcases set with trans | wakSts
      · exact absurd rfl trans
      · cases wakSts
  | boot pc => exact Or.inl (boot.cpuInit pc)
  | @arrive c s pc =>
      cases s with
      | none => exact boot.arrive pc
      | some s => exact (late pc rfl nofun).elim
  | pass pc full => exact absurd full (Nat.ne_of_lt boot.not_full)
  | fini pc => exact (late pc rfl nofun).elim
  | alone pc none => exact (late pc rfl nofun).elim
  | act pc => exact (late pc rfl nofun).elim
  | wake pc set => exact (late pc rfl nofun).elim
  | clear pc => exact (late pc rfl nofun).elim
  | clearTrans pc => exact (late pc rfl nofun).elim
  | request pc ok free => exact (late pc rfl nofun).elim
  | rke pc set => exact (late pc rfl nofun).elim
  | leave pc flag => exact (late pc rfl nofun).elim
  | resume slept one => exact (asleep slept).elim
  | restore slept other => exact (asleep slept).elim
  | restart slept other => exact (asleep slept).elim

/-! ## The transitions -/

/-- While the platform sleeps, all CPUs poll for the wake status bit. -/
theorem Up.awake (up : Up P m) (moves : ∀ s, (m.cpu c).pc ≠ .wake s) : m.slept = none := by
  cases slept : m.slept with
  | none => rfl
  | some s => exact absurd (up.slept s slept c) (moves s)

/-- While the bootstrap processor sends the platform to sleep, the others poll for the wake status bit. -/
theorem Up.act_bsp (up : Up P m) (moves : ∀ s, (m.cpu c).pc ≠ .wake s) {s : Transition} (acts : (m.cpu P.bsp).pc = .act s) :
    c = P.bsp := by
  by_contra other
  exact moves s (up.acts s acts c other)

/-- A CPU that does not poll for the wake status bit goes on. -/
theorem Up.update (up : Up P m) {x : Cpu} (cpu : m'.cpu = Function.update m.cpu c x)
    (shared : m'.trans = m.trans ∧ m'.wakSts = m.wakSts ∧ m'.slept = m.slept)
    (lists : m'.accepted = m.accepted ∧ m'.performed = m.performed) (moves : ∀ s, (m.cpu c).pc ≠ .wake s)
    (runs : Runs P m.trans c x) (counts : Counts Cpu.counted m'.cpu m'.online) (other : c = P.bsp → ∀ s, x.pc ≠ .wake s)
    (acts : ∀ s, x.pc = .act s → ∀ d, d ≠ P.bsp → (m.cpu d).pc = .wake s) : Up P m' := by
  have cpus : ∀ d, m'.cpu d = if d = c then x else m.cpu d := fun d => by rw [cpu, Function.update_apply]
  have awake := up.awake moves
  refine ⟨fun d => ?_, counts, shared.2.1.trans up.wakSts, fun s is => ?_, fun s is => ?_, fun s is d ne => ?_, ?_, ?_, ?_⟩
  · rw [cpus, shared.1]
    split
    · rename_i here
      rw [here]
      exact runs
    · exact up.places d
  · rw [shared.2.2, awake] at is
    cases is
  · rw [cpus] at is
    split at is
    · rename_i here
      exact absurd is (other here.symm s)
    · rw [up.wakes s is] at awake
      cases awake
  · rw [cpus] at is
    have left : d ≠ c := by
      rintro rfl
      rw [if_neg (Ne.symm ne)] at is
      exact ne (up.act_bsp moves is)
    rw [cpus, if_neg left]
    split at is
    · exact acts s is d ne
    · exact up.acts s is d ne
  · rw [lists.1, lists.2, shared.1, shared.2.2]
    exact up.ledger
  · rw [shared.1]
    exact up.valid
  · rw [shared.2.2, lists.2]
    exact up.noS1

theorem Up.fini (up : Up P m) {s : Transition} (pc : (m.cpu c).pc = .fini s) :
    Up P ({ m with online := decr m.online }.goto c (if c = P.bsp then .offline s else .wake s)) := by
  obtain ⟨same, asleep, set⟩ := (up.places c).fini pc
  generalize made : State.goto c _ _ = m'
  have cpu : m'.cpu = Function.update m.cpu c { m.cpu c with pc := if c = P.bsp then .offline s else .wake s } := by
    rw [← made]
    rfl
  have kept : (m'.trans = m.trans ∧ m'.wakSts = m.wakSts ∧ m'.slept = m.slept) ∧ (m'.accepted = m.accepted ∧
      m'.performed = m.performed) ∧ m'.online = decr m.online := by
    subst made
    exact ⟨⟨rfl, rfl, rfl⟩, ⟨rfl, rfl⟩, rfl⟩
  refine up.update cpu kept.1 kept.2.1 (fun t => by rw [pc]; nofun) ?_ ?_ (fun here t => ?_) (fun t is => ?_)
  · refine ⟨fun _ => set, ?_⟩
    by_cases here : c = P.bsp
    · simp only [if_pos here]
      exact ⟨same, asleep, here⟩
    · simp only [if_neg here]
      exact ⟨same, asleep⟩
  · obtain ⟨some, left⟩ := up.counts.leave (i := c) (x := { m.cpu c with pc := if c = P.bsp then .offline s else .wake s })
      (by simp only [Cpu.counted, pc]; rfl) (by by_cases here : c = P.bsp <;> simp only [Cpu.counted, here] <;> rfl)
    rw [kept.2.2, decr_eq some, cpu]
    exact left
  · simp [here]
  · by_cases here : c = P.bsp <;> simp [here] at is

/-- When `Cpu::online` is 0, all others have gone offline. -/
theorem Up.alone (up : Up P m) {s : Transition} (pc : (m.cpu c).pc = .offline s) (none : m.online = 0) : Up P (m.goto c (.act s)) := by
  obtain ⟨same, asleep, set, here⟩ := (up.places c).offline pc
  refine up.update (c := c) (x := { m.cpu c with pc := .act s }) rfl ⟨rfl, rfl, rfl⟩ ⟨rfl, rfl⟩ (fun t => by rw [pc]; nofun)
    ⟨fun _ => set, same, asleep, here⟩ (up.counts.same (by simp only [Cpu.counted, pc]; rfl)) (fun _ t => nofun) (fun t is d ne => ?_)
  cases is
  have counts := up.counts
  rw [none] at counts
  have out := counts.zero d
  unfold Cpu.counted at out
  rcases (up.places d).place with there | there | ⟨there | there | ⟨-, bsp⟩, -⟩
  · rw [there] at out
    cases out
  · rw [there] at out
    cases out
  · rw [there] at out
    cases out
  · rw [there, same]
  · exact absurd bsp ne

theorem Up.act (up : Up P m) {s : Transition} (pc : (m.cpu c).pc = .act s) :
    Up P ({ m with slept := some s, performed := m.performed ++ [s] }.goto c (.wake s)) := by
  obtain ⟨same, asleep, set, here⟩ := (up.places c).act pc
  subst here
  have awake := up.awake (c := P.bsp) fun t => by rw [pc]; nofun
  generalize made : State.goto P.bsp _ _ = m'
  have cpus : ∀ d, m'.cpu d = if d = P.bsp then { m.cpu P.bsp with pc := .wake s } else m.cpu d := fun d => by
    rw [← made, goto_cpu]
  have all : ∀ d, (m'.cpu d).pc = .wake s := by
    intro d
    rw [cpus]
    split
    · rfl
    · rename_i other
      exact up.acts s pc d other
  have kept : m'.trans = m.trans ∧ m'.wakSts = m.wakSts ∧ m'.slept = some s ∧ m'.accepted = m.accepted ∧
      m'.performed = m.performed ++ [s] := by
    rw [← made]
    exact ⟨rfl, rfl, rfl, rfl, rfl⟩
  obtain ⟨trans, wakSts, slept, accepted, performed⟩ := kept
  refine ⟨fun d => ?_, ?_, wakSts.trans up.wakSts, fun t is d => ?_, fun t is => ?_, fun t is => ?_, ?_, ?_, fun is => ?_,
    fun t is => ?_⟩
  · rw [cpus, trans]
    split
    · rename_i here
      rw [here]
      exact ⟨fun _ => set, same, asleep⟩
    · exact up.places d
  · rw [← made]
    exact up.counts.same (by simp only [Cpu.counted, pc]; rfl)
  · rw [slept] at is
    obtain rfl := Option.some.inj is
    exact all d
  · rw [all] at is
    cases is
    exact slept
  · rw [all] at is
    cases is
  · have ledger := up.ledger
    rw [if_pos ⟨set, awake⟩, ← same] at ledger
    rw [accepted, performed, ledger, slept, if_neg (fun is => Option.some_ne_none s is.2), List.append_nil]
  · rw [trans]
    exact up.valid
  · rw [slept] at is
    cases is
  · rw [slept] at is
    obtain rfl := Option.some.inj is
    exact ⟨m.performed, performed, up.noS1.1 awake⟩

theorem Up.request (up : Up P m) {t : Transition} (pc : (m.cpu c).pc = .user) (ok : P.supported t = true) (free : m.trans = 0) :
    Up P ({ m with trans := t, accepted := m.accepted ++ [t] }.setCpu c { m.cpu c with sleep := true }) := by
  have some : t ≠ 0 := by
    rintro rfl
    cases ok
  have awake := up.awake (c := c) fun t => by rw [pc]; nofun
  have places := up.places
  rw [free] at places
  generalize made : State.setCpu c _ _ = m'
  have cpus : ∀ d, m'.cpu d = if d = c then { m.cpu c with sleep := true } else m.cpu d := fun d => by rw [← made, setCpu_cpu]
  have pcs : ∀ d, (m'.cpu d).pc = (m.cpu d).pc := fun d => by
    rw [cpus]
    split
    · rename_i here
      rw [here]
    · rfl
  have kept : m'.trans = t ∧ m'.wakSts = m.wakSts ∧ m'.slept = m.slept ∧ m'.accepted = m.accepted ++ [t] ∧
      m'.performed = m.performed ∧ m'.online = m.online := by
    rw [← made]
    exact ⟨rfl, rfl, rfl, rfl, rfl, rfl⟩
  obtain ⟨trans, wakSts, slept, accepted, performed, online⟩ := kept
  refine ⟨fun d => ?_, ?_, wakSts.trans up.wakSts, fun s is => ?_, fun s is => ?_, fun s is d ne => ?_, ?_, fun _ => ?_, ?_⟩
  · rw [cpus, trans]
    split
    · refine ⟨fun _ => some, ?_⟩
      rw [pc]
      trivial
    · exact (places d).of_zero t
  · rw [online]
    exact up.counts.congr fun d => by simp only [Cpu.counted, pcs]
  · rw [slept, awake] at is
    cases is
  · rw [pcs] at is
    rw [up.wakes s is] at awake
    cases awake
  · rw [pcs] at is ⊢
    exact up.acts s is d ne
  · have ledger := up.ledger
    rw [if_neg fun is => is.1 free, List.append_nil] at ledger
    rw [accepted, performed, trans, slept, if_pos ⟨some, awake⟩, ledger]
  · rw [trans]
    exact ok
  · rw [slept, performed]
    exact up.noS1

/-- The platform starts again with what is in the memory. -/
theorem Up.restore (up : Up P m) {s : Transition} (slept : m.slept = some s) (other : s.state ≠ 1) :
    Boot P { m with wakSts := true, slept := none, cpu := fun c => { m.cpu c with pc := starts P c } } := by
  obtain ⟨p, performed, noS1⟩ := up.noS1.2 s slept
  have zero : m.online = 0 := by
    have counts := up.counts
    rw [Counts, Finset.filter_false_of_mem fun c _ => by rw [Cpu.counted, up.slept s slept c]; exact Bool.false_ne_true] at counts
    exact counts.symm
  refine ⟨fun c => ?_, ⟨P.bsp, ?_⟩, ?_, rfl, fun _ => ?_, fun c is => ?_, fun c _ => ?_, ?_, fun t member => ?_⟩
  · left
    show (starts P c).booting = true
    unfold starts
    split <;> rfl
  · show (starts P P.bsp).booting = true
    rw [starts, if_pos rfl]
    rfl
  · show Counts Cpu.counted _ m.online
    rw [zero]
    refine counts_zero fun c => ?_
    show (starts P c).counted = false
    unfold starts
    split <;> rfl
  · show starts P P.bsp = .init
    rw [starts, if_pos rfl]
  · by_contra away
    have is : starts P c = .init := is
    rw [starts, if_neg away] at is
    cases is
  · show (starts P c).unborn = true
    unfold starts
    split <;> rfl
  · have ledger := up.ledger
    rw [if_neg fun is => Option.some_ne_none s (slept.symm.trans is.2), List.append_nil] at ledger
    exact ledger
  · have member : t ∈ m.performed := member
    rw [performed] at member
    rcases List.mem_append.mp member with old | last
    · exact noS1 t old
    · rw [List.mem_singleton.mp last]
      exact other

theorem Up.restart (up : Up P m) {s : Transition} (slept : m.slept = some s) (other : s.state ≠ 1) :
    Boot P (coldBoot P m.accepted m.performed) := by
  have boot := up.restore slept other
  have same : m.accepted = m.performed := boot.ledger
  rw [same]
  exact boot_cold P boot.noS1

/-! ## After an S1 transition -/

/-- The platform woke up from its first S1 transition and has performed no other one since. -/
structure Tail (P : Platform n) (m : State n) : Prop where
  performed : ∃ p t, m.performed = p ++ [t] ∧ t.state = 1 ∧ NoS1 p
  awake : m.slept = none
  places : ∀ c, (m.cpu c).sleep = true ∧ (m.cpu c).pc.booting = false ∧ (m.cpu c).pc ≠ .barrier none
  acting : ∀ c, (m.cpu c).pc.acting = true → c = P.bsp
  asked : ∃ l, m.accepted = m.performed ++ l ∧ (l = [] → (m.cpu P.bsp).pc.Unasked m.trans)

theorem Up.resume (up : Up P m) {s : Transition} (slept : m.slept = some s) (one : s.state = 1) :
    Tail P { m with wakSts := true, slept := none } := by
  obtain ⟨p, performed, noS1⟩ := up.noS1.2 s slept
  have wakes := up.slept s slept
  refine ⟨⟨p, s, performed, one, noS1⟩, rfl, fun c => ⟨((up.places c).wake (wakes c)).2.1, ?_, ?_⟩, fun c is => ?_, [], ?_, fun _ => ?_⟩
  · show (m.cpu c).pc.booting = false
    rw [wakes c]
    rfl
  · show (m.cpu c).pc ≠ .barrier none
    rw [wakes c]
    nofun
  · have is : (m.cpu c).pc.acting = true := is
    rw [wakes c] at is
    cases is
  · have ledger := up.ledger
    rw [if_neg fun is => Option.some_ne_none s (slept.symm.trans is.2)] at ledger
    exact ledger
  · show (m.cpu P.bsp).pc.Unasked m.trans
    rw [wakes]
    trivial

theorem Up.move (up : Up P m) (move : Move P m m') : Boot P m' ∨ Up P m' ∨ Tail P m' := by
  have started : ∀ {c : Fin n} {q : Pc}, (m.cpu c).pc = q → q.late = true ∨ q.booting = true → False := by
    intro c q pc is
    obtain ⟨late, booting⟩ := (up.places c).started
    rw [pc] at late booting
    rcases is with is | is
    · rw [late] at is
      cases is
    · rw [booting] at is
      cases is
  have wakSts : m.wakSts ≠ true := by rw [up.wakSts]; exact Bool.false_ne_true
  cases move with
  | stay => exact Or.inr (Or.inl up)
  | init pc => exact (started pc (Or.inr rfl)).elim
  | boot pc => exact (started pc (Or.inr rfl)).elim
  | @arrive c s pc => cases s <;> exact (started pc (by first | exact Or.inr rfl | exact Or.inl rfl)).elim
  | @pass c s pc full =>
      cases s with
      | some s => exact (started pc (Or.inl rfl)).elim
      | none =>
          obtain ⟨flag, -⟩ := up.places c
          exact Or.inr (Or.inl (up.update (c := c) (x := { m.cpu c with pc := .user }) rfl ⟨rfl, rfl, rfl⟩ ⟨rfl, rfl⟩
            (fun s => by rw [pc]; nofun) ⟨flag, trivial⟩ (up.counts.same (by simp only [Cpu.counted, pc]; rfl)) (fun _ s => nofun) nofun))
  | fini pc => exact Or.inr (Or.inl (up.fini pc))
  | alone pc none => exact Or.inr (Or.inl (up.alone pc none))
  | act pc => exact Or.inr (Or.inl (up.act pc))
  | wake pc set => exact absurd set wakSts
  | clear pc => exact (started pc (Or.inl rfl)).elim
  | clearTrans pc => exact (started pc (Or.inl rfl)).elim
  | request pc ok free => exact Or.inr (Or.inl (up.request pc ok free))
  | @rke c pc set =>
      have some : m.trans ≠ 0 := by
        intro zero
        rw [zero] at set
        exact set rfl
      exact Or.inr (Or.inl (up.update (c := c) (x := { m.cpu c with sleep := true }) rfl ⟨rfl, rfl, rfl⟩ ⟨rfl, rfl⟩
        (fun s => by rw [pc]; nofun) ⟨fun _ => some, by rw [pc]; trivial⟩ (up.counts.same rfl)
        (fun _ s => by rw [pc]; nofun) (fun s => by rw [pc]; nofun)))
  | @leave c pc flag =>
      exact Or.inr (Or.inl (up.update (c := c) (x := { m.cpu c with pc := .fini m.trans }) rfl ⟨rfl, rfl, rfl⟩ ⟨rfl, rfl⟩
        (fun s => by rw [pc]; nofun) ⟨(up.places c).1, rfl, flag⟩ (up.counts.same (by simp only [Cpu.counted, pc]; rfl))
        (fun _ s => nofun) nofun))
  | resume slept one => exact Or.inr (Or.inr (up.resume slept one))
  | restore slept other => exact Or.inl (up.restore slept other)
  | restart slept other => exact Or.inl (up.restart slept other)

/-- An S1 transition has been performed, and another transition after it. -/
def Beyond (m : State n) : Prop := ∃ t ∈ m.performed.dropLast, t.state = 1

/-- What has been performed remains. -/
theorem Move.performed (move : Move P m m') : m'.performed = m.performed ∨
    ∃ c s, (m.cpu c).pc = .act s ∧ m'.performed = m.performed ++ [s] := by
  cases move with
  | @act c s pc => exact Or.inr ⟨c, s, pc, rfl⟩
  | @boot c pc =>
      left
      unfold cpuInit
      split <;> rfl
  | _ => exact Or.inl rfl

theorem Beyond.move (beyond : Beyond m) (move : Move P m m') : Beyond m' := by
  obtain ⟨t, member, one⟩ := beyond
  refine ⟨t, ?_, one⟩
  rcases move.performed with same | ⟨c, s, -, more⟩
  · rw [same]
    exact member
  · rw [more, List.dropLast_concat]
    exact List.dropLast_subset _ member

/-- A CPU goes on after an S1 transition. -/
theorem Tail.update (tail : Tail P m) {x : Cpu} (cpu : m'.cpu = Function.update m.cpu c x) (slept : m'.slept = m.slept)
    (lists : m'.accepted = m.accepted ∧ m'.performed = m.performed) (trans : m'.trans = m.trans ∨ m'.trans = 0)
    (place : x.sleep = true ∧ x.pc.booting = false ∧ x.pc ≠ .barrier none) (acting : x.pc.acting = true → c = P.bsp)
    (unasked : c = P.bsp → (m.cpu c).pc.Unasked m.trans → x.pc.Unasked m'.trans) : Tail P m' := by
  have cpus : ∀ d, m'.cpu d = if d = c then x else m.cpu d := fun d => by rw [cpu, Function.update_apply]
  obtain ⟨l, asked, bsp⟩ := tail.asked
  refine ⟨by rw [lists.2]; exact tail.performed, slept.trans tail.awake, fun d => ?_, fun d is => ?_, l, ?_, fun none => ?_⟩
  · rw [cpus]
    split
    · exact place
    · exact tail.places d
  · rw [cpus] at is
    split at is
    · rename_i here
      rw [here]
      exact acting is
    · exact tail.acting d is
  · rw [lists.1, lists.2]
    exact asked
  · have before := bsp none
    rw [cpus]
    split
    · rename_i here
      rw [here] at before
      exact unasked here.symm before
    · rcases trans with same | zero
      · rw [same]
        exact before
      · rw [zero]
        exact before.zero

theorem Tail.move (tail : Tail P m) (move : Move P m m') : Tail P m' ∨ Beyond m' := by
  have started : ∀ {c : Fin n} {q : Pc}, (m.cpu c).pc = q → q.booting = true ∨ q = .barrier none → False := by
    intro c q pc is
    obtain ⟨-, booting, barrier⟩ := tail.places c
    rw [pc] at booting barrier
    rcases is with is | is
    · rw [booting] at is
      cases is
    · exact barrier is
  have asleep : ∀ {s : Transition}, m.slept ≠ some s := by
    intro s is
    rw [tail.awake] at is
    cases is
  have flag := fun c => (tail.places c).1
  cases move with
  | stay => exact Or.inl tail
  | init pc => exact (started pc (Or.inl rfl)).elim
  | boot pc => exact (started pc (Or.inl rfl)).elim
  | @arrive c s pc =>
      cases s with
      | none => exact (started pc (Or.inl rfl)).elim
      | some s =>
          exact Or.inl (tail.update (c := c) (x := { m.cpu c with pc := .barrier (some s) }) rfl rfl ⟨rfl, rfl⟩ (Or.inl rfl)
            ⟨flag c, rfl, nofun⟩ nofun fun _ _ => trivial)
  | @pass c s pc full =>
      cases s with
      | none => exact (started pc (Or.inr rfl)).elim
      | some s =>
          refine Or.inl (tail.update (c := c) (x := { m.cpu c with pc := past P c (some s) }) rfl rfl ⟨rfl, rfl⟩ (Or.inl rfl)
            ⟨flag c, ?_⟩ (fun is => ?_) fun here _ => ?_)
          · by_cases here : c = P.bsp <;> simp [past, here, Pc.booting]
          · by_cases here : c = P.bsp
            · exact here
            · simp [past, here, Pc.acting] at is
          · simp only [past, if_pos here]
            trivial
  | @fini c s pc =>
      refine Or.inl (tail.update (c := c) (x := { m.cpu c with pc := if c = P.bsp then .offline s else .wake s }) rfl rfl
        ⟨rfl, rfl⟩ (Or.inl rfl) ⟨flag c, ?_⟩ (fun is => ?_) fun _ unasked => ?_)
      · by_cases here : c = P.bsp <;> simp [here, Pc.booting]
      · by_cases here : c = P.bsp
        · exact here
        · simp [here, Pc.acting] at is
      · rw [pc] at unasked
        by_cases here : c = P.bsp
        · simp only [if_pos here]
          exact unasked
        · simp only [if_neg here]
          trivial
  | @alone c s pc none =>
      refine Or.inl (tail.update (c := c) (x := { m.cpu c with pc := .act s }) rfl rfl ⟨rfl, rfl⟩ (Or.inl rfl)
        ⟨flag c, rfl, nofun⟩ (fun _ => tail.acting c (by rw [pc]; rfl)) fun _ unasked => ?_)
      rw [pc] at unasked
      exact unasked
  | @act c s pc =>
      right
      obtain ⟨p, t, performed, one, -⟩ := tail.performed
      refine ⟨t, ?_, one⟩
      show t ∈ (m.performed ++ [s]).dropLast
      rw [List.dropLast_concat, performed]
      exact List.mem_append_right p (List.mem_singleton_self t)
  | @wake c s pc set =>
      exact Or.inl (tail.update (c := c) (x := { m.cpu c with pc := .arrive (some s) }) rfl rfl ⟨rfl, rfl⟩ (Or.inl rfl)
        ⟨flag c, rfl, nofun⟩ nofun fun _ _ => trivial)
  | @clear c pc =>
      exact Or.inl (tail.update (c := c) (x := { m.cpu c with pc := .clearTrans }) rfl rfl ⟨rfl, rfl⟩ (Or.inl rfl)
        ⟨flag c, rfl, nofun⟩ nofun fun _ _ => trivial)
  | @clearTrans c pc =>
      exact Or.inl (tail.update (c := c) (x := { m.cpu c with pc := .user }) rfl rfl ⟨rfl, rfl⟩ (Or.inr rfl)
        ⟨flag c, rfl, nofun⟩ nofun fun _ _ => rfl)
  | @request c t pc ok free =>
      obtain ⟨l, asked, -⟩ := tail.asked
      refine Or.inl ⟨tail.performed, tail.awake, fun d => ?_, fun d is => ?_, l ++ [t], ?_, fun none => by simp at none⟩
      · rw [setCpu_cpu]
        split
        · rename_i here
          exact ⟨rfl, by rw [← here]; exact (tail.places d).2⟩
        · exact tail.places d
      · rw [setCpu_cpu] at is
        split at is
        · rw [pc] at is
          cases is
        · exact tail.acting d is
      · show m.accepted ++ [t] = _
        rw [asked, List.append_assoc]
        rfl
  | @rke c pc set =>
      exact Or.inl (tail.update (c := c) (x := { m.cpu c with sleep := true }) rfl rfl ⟨rfl, rfl⟩ (Or.inl rfl)
        ⟨rfl, (tail.places c).2⟩ (tail.acting c) fun _ => id)
  | @leave c pc set =>
      refine Or.inl (tail.update (c := c) (x := { m.cpu c with pc := .fini m.trans }) rfl rfl ⟨rfl, rfl⟩ (Or.inl rfl)
        ⟨flag c, rfl, nofun⟩ nofun fun _ unasked => ?_)
      rw [pc] at unasked
      exact unasked
  | resume slept one => exact (asleep slept).elim
  | restore slept other => exact (asleep slept).elim
  | restart slept other => exact (asleep slept).elim

/-- In which of its lives a machine is -/
def Reached (P : Platform n) (m : State n) : Prop := Boot P m ∨ Up P m ∨ Tail P m ∨ Beyond m

theorem Reached.move (reached : Reached P m) (move : Move P m m') : Reached P m' := by
  rcases reached with boot | up | tail | beyond
  · exact (boot.move move).imp_right Or.inl
  · rcases up.move move with boot | up | tail
    · exact Or.inl boot
    · exact Or.inr (Or.inl up)
    · exact Or.inr (Or.inr (Or.inl tail))
  · exact Or.inr (Or.inr (tail.move move))
  · exact Or.inr (Or.inr (Or.inr (beyond.move move)))

theorem Reached.run (reached : Reached P m) (events : List (Event n)) : Reached P (m.run P events) := by
  induction events generalizing m with
  | nil => exact reached
  | cons e rest ih => exact ih (reached.move (step_move m e))

theorem reached_start (P : Platform n) (events : List (Event n)) : Reached P ((start P).run P events) :=
  Reached.run (Or.inl (boot_cold P fun _ member => absurd member List.not_mem_nil)) events

/-- A machine that has not been in S1 -/
theorem Reached.fresh (reached : Reached P m) (noS1 : NoS1 m.performed) : Boot P m ∨ Up P m := by
  rcases reached with boot | up | ⟨⟨p, t, performed, one, -⟩, -⟩ | ⟨t, member, one⟩
  · exact Or.inl boot
  · exact Or.inr up
  · exact absurd one (noS1 t (by rw [performed]; exact List.mem_append_right p (List.mem_singleton_self t)))
  · exact absurd one (noS1 t (List.dropLast_subset _ member))

/-! ## Accepted and performed -/

/-- The accepted transitions are performed one after the other, and nothing else.  The bootstrap
processor performs a transition when all others have prepared themselves for the same one and poll for
the wake status bit, and they do so until the platform wakes up. -/
structure Orderly (P : Platform n) (m : State n) : Prop where
  ledger : m.accepted = m.performed ∨ m.accepted = m.performed ++ [m.trans]
  prepares : ∀ c s, (m.cpu c).pc = .fini s ∨ (m.cpu c).pc = .offline s ∨ (m.cpu c).pc = .wake s →
    m.accepted = m.performed ++ [s] ∨ m.slept = some s
  performs : ∀ c s, (m.cpu c).pc = .act s → c = P.bsp ∧ m.accepted = m.performed ++ [s] ∧ m.wakSts = false ∧
    ∀ d, d ≠ c → (m.cpu d).pc = .wake s
  sleeps : ∀ s, m.slept = some s → m.accepted = m.performed ∧ m.wakSts = false ∧ ∀ c, (m.cpu c).pc = .wake s
  online : Counts Cpu.counted m.cpu m.online

theorem Boot.not_down (boot : Boot P m) (c : Fin n) : (m.cpu c).pc.down = false := by
  cases down : (m.cpu c).pc.down with
  | false => rfl
  | true =>
      obtain ⟨booting, -, barrier⟩ := Pc.of_down down
      rcases boot.places c with is | is
      · rw [booting] at is
        cases is
      · exact absurd is barrier

theorem Boot.orderly (boot : Boot P m) : Orderly P m := by
  have early : ∀ {c : Fin n} {q : Pc}, (m.cpu c).pc = q → q.down = true → False := by
    intro c q pc is
    have up := boot.not_down c
    rw [pc, is] at up
    cases up
  refine ⟨Or.inl boot.ledger, fun c s is => ?_, fun c s is => (early is rfl).elim, fun s is => ?_, boot.counts⟩
  · rcases is with pc | pc | pc
    · rcases boot.places c with is | is <;> rw [pc] at is <;> cases is
    · exact (early pc rfl).elim
    · exact (early pc rfl).elim
  · rw [boot.awake] at is
    cases is

theorem Up.pending (up : Up P m) (awake : m.slept = none) (set : m.trans ≠ 0) : m.accepted = m.performed ++ [m.trans] := by
  have ledger := up.ledger
  rwa [if_pos ⟨set, awake⟩] at ledger

theorem Up.orderly (up : Up P m) : Orderly P m := by
  refine ⟨?_, fun c s is => ?_, fun c s is => ?_, fun s is => ⟨?_, up.wakSts, up.slept s is⟩, up.counts⟩
  · by_cases pending : m.trans ≠ 0 ∧ m.slept = none
    · exact Or.inr (up.pending pending.2 pending.1)
    · have ledger := up.ledger
      rw [if_neg pending, List.append_nil] at ledger
      exact Or.inl ledger
  · have takes : s = m.trans ∧ m.trans ≠ 0 := by
      rcases is with pc | pc | pc
      · have place := (up.places c).fini pc
        exact ⟨place.1, place.2.2⟩
      · have place := (up.places c).offline pc
        exact ⟨place.1, place.2.2.1⟩
      · have place := (up.places c).wake pc
        exact ⟨place.1, place.2.2⟩
    obtain ⟨rfl, set⟩ := takes
    cases slept : m.slept with
    | none => exact Or.inl (up.pending slept set)
    | some t =>
        have there := up.slept t slept c
        rw [((up.places c).wake there).1]
        exact Or.inr rfl
  · obtain ⟨rfl, -, set, here⟩ := (up.places c).act is
    subst here
    exact ⟨rfl, up.pending (up.awake fun t => by rw [is]; nofun) set, up.wakSts, up.acts _ is⟩
  · have ledger := up.ledger
    rw [if_neg fun pending => Option.some_ne_none s (is.symm.trans pending.2), List.append_nil] at ledger
    exact ledger

/-- **As long as no S1 transition has been performed, the accepted transitions are performed** in every
run, each once and with all CPUs prepared for it. -/
theorem transitions_performed (P : Platform n) (events : List (Event n)) (noS1 : NoS1 ((start P).run P events).performed) :
    Orderly P ((start P).run P events) := by
  rcases (reached_start P events).fresh noS1 with boot | up
  · exact boot.orderly
  · exact up.orderly

local instance dual_neZero : NeZero 2 := ⟨by decide⟩

/-- Two CPUs; the first one is the bootstrap processor. -/
def dual : Platform 2 where
  bsp := 0
  canReset := true
  canSleep := true
  count_le := by decide

/-- Both CPUs have arrived at the barrier, and the bootstrap processor has passed it. -/
def boots : List (Event 2) := [.go 0, .go 0, .go 0, .go 1, .go 1, .go 0]

/-- Both CPUs go offline for the transition. -/
def sleepsIn (t : Transition) : List (Event 2) :=
  [.go 1, .request 0 t, .leave 0, .go 0, .rke 1, .leave 1, .go 1, .go 0]

theorem transitions_performed_dual :
    ((start dual).run dual (boots ++ sleepsIn 3)).cpu 0 = { pc := .act 3, sleep := true } ∧
      ((start dual).run dual (boots ++ sleepsIn 3)).cpu 1 = { pc := .wake 3, sleep := true } ∧
        Orderly dual ((start dual).run dual (boots ++ sleepsIn 3)) :=
  ⟨by decide +kernel, by decide +kernel, transitions_performed dual (boots ++ sleepsIn 3) fun _ member => by
    rw [show ((start dual).run dual (boots ++ sleepsIn 3)).performed = [] by decide +kernel] at member
    cases member⟩

/-! ## The barrier -/

/-- A CPU waits at the barrier of `bootstrap`, and another one has gone offline. -/
def Stuck (m : State n) : Prop := ∃ c d, (m.cpu c).pc = .barrier none ∧ (m.cpu d).pc.down = true

/-- A CPU leaves the barrier when all CPUs have arrived. -/
theorem Move.waits (move : Move P m m') (waits : (m.cpu c).pc = .barrier none) (less : m.online ≠ n) (awake : m.slept = none) :
    (m'.cpu c).pc = .barrier none := by
  have other : ∀ {e : Fin n} {q : Pc}, (m.cpu e).pc = q → q ≠ .barrier none → c ≠ e := by
    rintro e q pc ne rfl
    exact ne (pc.symm.trans waits)
  have asleep : ∀ {s : Transition}, m.slept ≠ some s := by
    intro s is
    rw [awake] at is
    cases is
  cases move with
  | stay => exact waits
  | @boot e pc =>
      have ne := other pc nofun
      unfold cpuInit
      split <;> simp [ne, waits]
  | @arrive e s pc => simp [other pc nofun, waits]
  | pass pc full => exact absurd full less
  | init pc => simp [other pc nofun, waits]
  | fini pc => simp [other pc nofun, waits]
  | alone pc none => simp [other pc nofun, waits]
  | act pc => simp [other pc nofun, waits]
  | wake pc set => simp [other pc nofun, waits]
  | clear pc => simp [other pc nofun, waits]
  | clearTrans pc => simp [other pc nofun, waits]
  | request pc ok free => simp [other pc nofun, waits]
  | rke pc set => simp [other pc nofun, waits]
  | leave pc flag => simp [other pc nofun, waits]
  | resume slept one => exact absurd slept asleep
  | restore slept one => exact absurd slept asleep
  | restart slept one => exact absurd slept asleep

/-- A CPU comes online again when the platform woke up. -/
theorem Move.down (move : Move P m m') (down : (m.cpu c).pc.down = true) (clear : m.wakSts = false) (awake : m.slept = none) :
    (m'.cpu c).pc.down = true := by
  have other : ∀ {e : Fin n} {q : Pc}, (m.cpu e).pc = q → q.down = false → c ≠ e := by
    rintro e q pc up rfl
    rw [pc, up] at down
    cases down
  have asleep : ∀ {s : Transition}, m.slept ≠ some s := by
    intro s is
    rw [awake] at is
    cases is
  cases move with
  | stay => exact down
  | @boot e pc =>
      have ne := other pc rfl
      have started : (m.cpu c).pc ≠ .off := by
        intro off
        rw [off] at down
        cases down
      unfold cpuInit
      split <;> simp [ne, down, started]
  | alone pc none =>
      rw [goto_cpu]
      split
      · rfl
      · exact down
  | act pc =>
      rw [goto_cpu]
      split
      · rfl
      · exact down
  | wake pc set =>
      rw [clear] at set
      cases set
  | init pc => simp [other pc rfl, down]
  | arrive pc => simp [other pc rfl, down]
  | pass pc full => simp [other pc rfl, down]
  | fini pc => simp [other pc rfl, down]
  | clear pc => simp [other pc rfl, down]
  | clearTrans pc => simp [other pc rfl, down]
  | request pc ok free => simp [other pc rfl, down]
  | rke pc set => simp [other pc rfl, down]
  | leave pc flag => simp [other pc rfl, down]
  | resume slept one => exact absurd slept asleep
  | restore slept one => exact absurd slept asleep
  | restart slept one => exact absurd slept asleep

/-- Of a CPU that waits at the barrier and one that has gone offline, none goes on. -/
theorem Up.stuck (up : Up P m) (stuck : Stuck m) (move : Move P m m') :
    Up P m' ∧ Stuck m' ∧ m'.performed = m.performed := by
  obtain ⟨c, d, waits, down⟩ := stuck
  have less := up.counts.lt (i := d) (Pc.of_down down).2.1
  rw [Fintype.card_fin] at less
  have awake := up.awake (c := c) fun s => by rw [waits]; nofun
  have waits' := move.waits waits (Nat.ne_of_lt less) awake
  have down' := move.down down up.wakSts awake
  refine ⟨?_, ⟨c, d, waits', down'⟩, ?_⟩
  · rcases up.move move with boot | up | tail
    · rw [boot.not_down d] at down'
      cases down'
    · exact up
    · exact absurd waits' (tail.places c).2.2
  · rcases move.performed with same | ⟨e, s, acts, -⟩
    · exact same
    · have here := (up.places e).act acts
      rw [here.2.2.2] at acts
      have other : c ≠ P.bsp := by
        rintro rfl
        rw [waits] at acts
        cases acts
      rw [up.acts s acts c other] at waits
      cases waits

theorem Up.stuck_run (up : Up P m) (stuck : Stuck m) (events : List (Event n)) : (m.run P events).performed = m.performed := by
  induction events generalizing m with
  | nil => rfl
  | cons e rest ih =>
      obtain ⟨up', stuck', same⟩ := up.stuck stuck (step_move m e)
      exact (ih up' stuck').trans same

def steps (m : State n) : Nat := ∑ c, (m.cpu c).steps

theorem steps_lt {x : Cpu} (cpu : m'.cpu = Function.update m.cpu c x) (less : x.steps < (m.cpu c).steps) : steps m' < steps m := by
  refine Finset.sum_lt_sum (fun d _ => ?_) ⟨c, Finset.mem_univ c, ?_⟩
  · rw [cpu, Function.update_apply]
    split
    · rename_i here
      rw [here]
      exact Nat.le_of_lt less
    · exact Nat.le_refl _
  · rw [cpu, Function.update_self]
    exact less

theorem Up.stays (up : Up P m) (awake : m.slept = none) (set : m.trans ≠ 0) (move : Move P m m')
    (lists : m'.accepted = m.accepted ∧ m'.performed = m.performed) : Up P m' := by
  rcases up.move move with boot | up | ⟨⟨p, t, performed, one, -⟩, -⟩
  · have ledger := boot.ledger
    rw [lists.1, lists.2, up.pending awake set] at ledger
    exact absurd ledger (by simp)
  · exact up
  · refine absurd one (up.noS1.1 awake t ?_)
    rw [← lists.2, performed]
    exact List.mem_append_right p (List.mem_singleton_self t)

/-- A transition has been accepted and not been performed, and no CPU is stuck. -/
structure Pending (P : Platform n) (m : State n) : Prop where
  up : Up P m
  set : m.trans ≠ 0
  awake : m.slept = none
  free : ¬ Stuck m

theorem Pending.update (pending : Pending P m) {x : Cpu} {e : Event n} (cpu : (m.step P e).cpu = Function.update m.cpu c x)
    (kept : (m.step P e).trans = m.trans ∧ (m.step P e).slept = m.slept ∧ (m.step P e).accepted = m.accepted ∧
      (m.step P e).performed = m.performed) (less : x.steps < (m.cpu c).steps)
    (free : (∀ d, d ≠ c → (m.cpu d).pc ≠ .barrier none) ∧ x.pc ≠ .barrier none ∨
      (∀ d, d ≠ c → (m.cpu d).pc.down = false) ∧ x.pc.down = false) :
    Pending P (m.step P e) ∧ steps (m.step P e) < steps m ∧ (m.step P e).performed = m.performed ∧
      (m.step P e).trans = m.trans := by
  obtain ⟨trans, slept, lists⟩ := kept
  refine ⟨⟨pending.up.stays pending.awake pending.set (step_move m e) lists, ?_, slept.trans pending.awake, ?_⟩,
    steps_lt cpu less, lists.2, trans⟩
  · rw [trans]
    exact pending.set
  · rintro ⟨a, b, waits, down⟩
    rw [cpu, Function.update_apply] at waits down
    rcases free with ⟨others, here⟩ | ⟨others, here⟩
    · split at waits
      · exact here waits
      · rename_i other
        exact others a other waits
    · split at down
      · rw [here] at down
        cases down
      · rename_i other
        rw [others b other] at down
        cases down

/-- **The next step to the transition** -/
theorem Pending.progress (pending : Pending P m) : ∃ e, (m.step P e).performed = m.performed ++ [m.trans] ∨
    Pending P (m.step P e) ∧ steps (m.step P e) < steps m ∧ (m.step P e).performed = m.performed ∧
      (m.step P e).trans = m.trans := by
  have up := pending.up
  by_cases barrier : ∃ c, (m.cpu c).pc = .barrier none
  · -- nobody has gone offline, so that all have arrived
    obtain ⟨c, waits⟩ := barrier
    have online : ∀ d, (m.cpu d).pc.down = false := fun d => by
      cases down : (m.cpu d).pc.down with
      | false => rfl
      | true => exact absurd ⟨c, d, waits, down⟩ pending.free
    have full : m.online = n := by
      have all : ∀ d, (m.cpu d).counted = true := fun d => by
        have down := online d
        unfold Cpu.counted
        rcases (up.places d).place with pc | pc | ⟨pc | pc | ⟨pc | pc, -⟩, -⟩ <;> rw [pc] at down ⊢ <;>
          first | rfl | cases down
      have same := up.counts.symm.trans (counts_full all)
      rwa [Fintype.card_fin] at same
    have done : m.step P (.go c) = m.goto c .user := by
      simp only [step, go, waits, full, if_true]
      rfl
    refine ⟨.go c, Or.inr (pending.update (c := c) (x := { m.cpu c with pc := .user }) (by rw [done]; rfl) (by rw [done]; exact ⟨rfl, rfl, rfl, rfl⟩) ?_ (Or.inr ⟨fun d _ => online d, rfl⟩))⟩
    simp only [Cpu.steps, waits]
    split <;> omega
  · have none : ∀ d, (m.cpu d).pc ≠ .barrier none := fun d waits => barrier ⟨d, waits⟩
    by_cases user : ∃ c, (m.cpu c).pc = .user
    · obtain ⟨c, pc⟩ := user
      by_cases flag : (m.cpu c).sleep = true
      · have done : m.step P (.leave c) = m.goto c (.fini m.trans) := if_pos ⟨pc, flag⟩
        refine ⟨.leave c, Or.inr (pending.update (c := c) (x := { m.cpu c with pc := .fini m.trans }) (by rw [done]; rfl)
          (by rw [done]; exact ⟨rfl, rfl, rfl, rfl⟩) ?_ (Or.inl ⟨fun d _ => none d, nofun⟩))⟩
        simp only [Cpu.steps, pc, flag, if_true]
        omega
      · have kind : m.trans.state ≠ 0 := by
          intro zero
          have ok := up.valid pending.set
          simp [Platform.supported, zero] at ok
        have done : m.step P (.rke c) = m.setCpu c { m.cpu c with sleep := true } := if_pos ⟨pc, kind⟩
        refine ⟨.rke c, Or.inr (pending.update (c := c) (x := { m.cpu c with sleep := true }) (by rw [done]; rfl)
          (by rw [done]; exact ⟨rfl, rfl, rfl, rfl⟩) ?_ (Or.inl ⟨fun d _ => none d, none c⟩))⟩
        simp only [Cpu.steps, pc, flag, if_true]
        decide
    · by_cases fini : ∃ c s, (m.cpu c).pc = .fini s
      · obtain ⟨c, s, pc⟩ := fini
        have done : m.step P (.go c) = { m with online := decr m.online }.goto c (if c = P.bsp then .offline s else .wake s) := by
          simp only [step, go, pc]
        refine ⟨.go c, Or.inr (pending.update (c := c) (x := { m.cpu c with pc := if c = P.bsp then .offline s else .wake s })
          (by rw [done]; rfl) (by rw [done]; exact ⟨rfl, rfl, rfl, rfl⟩) ?_ (Or.inl ⟨fun d _ => none d, ?_⟩))⟩
        · by_cases here : c = P.bsp
          · subst here
            simp [Cpu.steps, pc]
          · simp [Cpu.steps, pc, here]
        · by_cases here : c = P.bsp <;> simp [here]
      · -- all others have gone offline
        have rest : ∀ d, (m.cpu d).counted = false := fun d => by
          unfold Cpu.counted
          rcases (up.places d).place with pc | pc | ⟨pc | pc | ⟨pc | pc, -⟩, -⟩
          · exact absurd pc (none d)
          · exact absurd ⟨d, pc⟩ user
          · exact absurd ⟨d, _, pc⟩ fini
          · rw [pc]
            rfl
          · rw [pc]
            rfl
          · rw [pc]
            rfl
        rcases (up.places P.bsp).place with pc | pc | ⟨pc | pc | ⟨pc | pc, -⟩, -⟩
        · exact absurd pc (none P.bsp)
        · exact absurd ⟨P.bsp, pc⟩ user
        · exact absurd ⟨P.bsp, _, pc⟩ fini
        · have slept := up.wakes _ pc
          rw [pending.awake] at slept
          cases slept
        · have zero : m.online = 0 := up.counts.symm.trans (counts_zero rest)
          have done : m.step P (.go P.bsp) = m.goto P.bsp (.act m.trans) := by simp only [step, go, pc, zero, if_true]
          refine ⟨.go P.bsp, Or.inr (pending.update (c := P.bsp) (x := { m.cpu P.bsp with pc := .act m.trans }) (by rw [done]; rfl)
            (by rw [done]; exact ⟨rfl, rfl, rfl, rfl⟩) ?_ (Or.inl ⟨fun d _ => none d, nofun⟩))⟩
          simp [Cpu.steps, pc]
        · refine ⟨.go P.bsp, Or.inl ?_⟩
          simp only [step, go, pc]
          rfl

theorem Pending.performable (pending : Pending P m) : ∃ later, (m.run P later).performed = m.performed ++ [m.trans] := by
  induction bound : steps m using Nat.strong_induction_on generalizing m with
  | _ k ih =>
      obtain ⟨e, done | ⟨next, less, same, trans⟩⟩ := pending.progress
      · exact ⟨[e], done⟩
      · obtain ⟨later, performed⟩ := ih _ (bound ▸ less) next rfl
        rw [same, trans] at performed
        exact ⟨e :: later, performed⟩

theorem run_append (first second : List (Event n)) : m.run P (first ++ second) = (m.run P first).run P second :=
  List.foldl_append

/-- **An accepted transition can still be performed** exactly if no CPU waits at the barrier of
`bootstrap` while another has gone offline.  Then it can be the next that is performed. -/
theorem performable_iff (P : Platform n) (events : List (Event n)) (noS1 : NoS1 ((start P).run P events).performed)
    (accepted : ((start P).run P events).accepted ≠ ((start P).run P events).performed) :
    ((∃ later, ((start P).run P (events ++ later)).performed ≠ ((start P).run P events).performed) ↔
      ¬ Stuck ((start P).run P events)) ∧
    (¬ Stuck ((start P).run P events) → ∃ later, ((start P).run P (events ++ later)).performed =
      ((start P).run P events).performed ++ [((start P).run P events).trans]) := by
  have reached := reached_start P events
  generalize made : (start P).run P events = m at *
  have up : Up P m := by
    rcases reached.fresh noS1 with boot | up
    · exact absurd boot.ledger accepted
    · exact up
  have split : ∀ later, (start P).run P (events ++ later) = m.run P later := fun later => by rw [run_append, made]
  simp only [split]
  have next : ¬ Stuck m → ∃ later, (m.run P later).performed = m.performed ++ [m.trans] := by
    intro free
    have open_ : m.trans ≠ 0 ∧ m.slept = none := by
      by_contra not
      have ledger := up.ledger
      rw [if_neg not, List.append_nil] at ledger
      exact accepted ledger
    exact (⟨up, open_.1, open_.2, free⟩ : Pending P m).performable
  refine ⟨⟨?_, fun free => ?_⟩, next⟩
  · rintro ⟨later, performed⟩ stuck
    exact performed (up.stuck_run stuck later)
  · obtain ⟨later, performed⟩ := next free
    refine ⟨later, ?_⟩
    rw [performed]
    simp

/-- The bootstrap processor goes offline before the other CPU has seen that all have arrived: the
machine hangs. -/
theorem performable_iff_dual :
    let events := boots ++ [.request 0 3, .leave 0, .go 0]
    ((start dual).run dual events).accepted = [3] ∧
      ¬ ∃ later, ((start dual).run dual (events ++ later)).performed ≠ ((start dual).run dual events).performed := by
  intro events
  have performed : ((start dual).run dual events).performed = [] := by decide +kernel
  have accepted : ((start dual).run dual events).accepted = [3] := by decide +kernel
  refine ⟨accepted, fun later => ?_⟩
  refine (performable_iff dual events (fun _ member => ?_) ?_).1.mp later ⟨1, 0, by decide +kernel, by decide +kernel⟩
  · rw [performed] at member
    cases member
  · rw [performed, accepted]
    nofun

/-! ## Hazards after an S1 transition -/

/-- What has been accepted remains. -/
theorem Move.accepted (move : Move P m m') : m.accepted <+: m'.accepted := by
  cases move with
  | request pc ok free => exact List.prefix_append ..
  | @boot c pc =>
      unfold cpuInit
      split <;> exact List.prefix_rfl
  | _ => exact List.prefix_rfl

theorem accepted_run (events : List (Event n)) : m.accepted <+: (m.run P events).accepted := by
  induction events generalizing m with
  | nil => exact List.prefix_rfl
  | cons e rest ih => exact (step_move (P := P) m e).accepted.trans ih

theorem performed_run (events : List (Event n)) : m.performed <+: (m.run P events).performed := by
  induction events generalizing m with
  | nil => exact List.prefix_rfl
  | cons e rest ih =>
      have now : m.performed <+: (m.step P e).performed := by
        rcases (step_move (P := P) m e).performed with same | ⟨c, s, -, more⟩
        · rw [same]
        · rw [more]
          exact List.prefix_append ..
      exact now.trans ih

section Woken

variable {p : List Transition} {t : Transition}

/-- The last transition was the first S1 transition. -/
theorem Reached.woken (reached : Reached P m) (performed : m.performed = p ++ [t]) (one : t.state = 1) (noS1 : NoS1 p) :
    Up P m ∧ m.slept = some t ∨ Tail P m := by
  have last : ¬ NoS1 m.performed := by
    intro none
    exact none t (by rw [performed]; exact List.mem_append_right p (List.mem_singleton_self t)) one
  rcases reached with boot | up | tail | ⟨u, member, again⟩
  · exact absurd boot.noS1 last
  · cases slept : m.slept with
    | none => exact absurd (up.noS1.1 slept) last
    | some s =>
        obtain ⟨q, same, -⟩ := up.noS1.2 s slept
        rw [performed] at same
        obtain ⟨-, is⟩ := List.append_inj' same rfl
        cases is
        exact Or.inl ⟨up, rfl⟩
  · exact Or.inr tail
  · rw [performed, List.dropLast_concat] at member
    exact absurd again (noS1 u member)

/-- All CPUs have `Hazard::SLEEP`. -/
theorem Reached.sleep (reached : Reached P m) (performed : m.performed = p ++ [t]) (one : t.state = 1) (noS1 : NoS1 p)
    (c : Fin n) : (m.cpu c).sleep = true := by
  rcases reached.woken performed one noS1 with ⟨up, slept⟩ | tail
  · exact ((up.places c).wake (up.slept t slept c)).2.1
  · exact (tail.places c).1

/-- The next transition, if there is none that has been accepted -/
theorem Reached.next (reached : Reached P m) (performed : m.performed = p ++ [t]) (one : t.state = 1) (noS1 : NoS1 p)
    (nothing : m.accepted <+: m.performed) (move : Move P m m') :
    m'.performed = m.performed ∨ m'.performed = m.performed ++ [0] := by
  rcases move.performed with same | ⟨c, s, acts, more⟩
  · exact Or.inl same
  · right
    rcases reached.woken performed one noS1 with ⟨up, slept⟩ | tail
    · rw [up.slept t slept c] at acts
      cases acts
    · obtain ⟨l, asked, unasked⟩ := tail.asked
      have here := tail.acting c (by rw [acts]; rfl)
      subst here
      rw [asked] at nothing
      have empty : l = [] := by
        have length := nothing.length_le
        rw [List.length_append] at length
        exact List.eq_nil_of_length_eq_zero (by omega)
      have zero := unasked empty
      rw [acts] at zero
      rw [more, show s = 0 from zero]

theorem Reached.resets (reached : Reached P m) (performed : m.performed = p ++ [t]) (one : t.state = 1) (noS1 : NoS1 p)
    (events : List (Event n)) (nothing : (m.run P events).accepted = p ++ [t]) :
    (m.run P events).performed = p ++ [t] ∨ ∃ q, (m.run P events).performed = p ++ [t] ++ 0 :: q := by
  induction events generalizing m with
  | nil => exact Or.inl performed
  | cons e rest ih =>
      have before : m.accepted <+: m.performed := by
        rw [performed, ← nothing]
        exact accepted_run (e :: rest)
      rcases reached.next performed one noS1 before (step_move m e) with same | reset
      · exact ih (reached.move (step_move m e)) (same.trans performed) nothing
      · right
        obtain ⟨q, later⟩ := performed_run (P := P) (m := m.step P e) rest
        refine ⟨q, ?_⟩
        show ((m.step P e).run P rest).performed = _
        rw [← later, reset, performed, List.append_assoc]
        rfl

end Woken

/-- **After the first S1 transition every CPU keeps `Hazard::SLEEP`** until the next transition is
performed, so that it enters `Cpu::fini` whenever it leaves the kernel; and if `sys_ctrl_hw` accepts none,
that is the transition 0, with which `Acpi::fini` resets the platform. -/
theorem s1_keeps_sleep (P : Platform n) (events later : List (Event n)) (p : List Transition) (t : Transition)
    (performed : ((start P).run P events).performed = p ++ [t]) (one : t.state = 1) (noS1 : NoS1 p) :
    (∀ c, (((start P).run P events).cpu c).sleep = true) ∧
      (((start P).run P (events ++ later)).accepted = p ++ [t] →
        ((start P).run P (events ++ later)).performed = p ++ [t] ∨
          ∃ q, ((start P).run P (events ++ later)).performed = p ++ [t] ++ 0 :: q) := by
  have reached := reached_start P events
  refine ⟨reached.sleep performed one noS1, fun nothing => ?_⟩
  rw [run_append] at nothing ⊢
  exact reached.resets performed one noS1 later nothing

/-- The platform sleeps in S1 and wakes up, and all CPUs return to user mode. -/
def naps : List (Event 2) :=
  [.go 0, .power, .go 0, .go 0, .go 1, .go 1, .go 1, .go 0, .go 0, .go 0]

/-- Both CPUs leave the kernel once more. -/
def leavesAgain : List (Event 2) := [.leave 0, .go 0, .leave 1, .go 1, .go 0, .go 0]

/-- A machine that has woken up from S1 resets itself. -/
theorem s1_keeps_sleep_dual :
    let events := boots ++ sleepsIn 1 ++ naps
    ((start dual).run dual events).accepted = [1] ∧
      (∀ c, ((start dual).run dual events).cpu c = { pc := .user, sleep := true }) ∧
        ((start dual).run dual (events ++ leavesAgain)).accepted = [1] ∧
          ∃ q, ((start dual).run dual (events ++ leavesAgain)).performed = [] ++ [1] ++ 0 :: q := by
  intro events
  have performed : ((start dual).run dual events).performed = [] ++ [1] := by decide +kernel
  have nothing : ((start dual).run dual (events ++ leavesAgain)).accepted = [] ++ [1] := by decide +kernel
  have keeps := s1_keeps_sleep dual events leavesAgain [] 1 performed (by decide) fun _ member => absurd member List.not_mem_nil
  refine ⟨by decide +kernel, by decide +kernel, nothing, (keeps.2 nothing).resolve_left ?_⟩
  decide +kernel

end State

end Nova.Kernel.Power
