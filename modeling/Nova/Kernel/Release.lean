/-
# Nova.Kernel.Release — the release queues of the CPUs

`Scheduler::unblock` makes an SC of another CPU ready: it appends the SC to the release queue of
that CPU, under the lock of the queue, and sends `RRQ` only if the queue was empty.  The other CPU
takes the interrupt, and `Scheduler::requeue` moves the SCs to its ready queue, one after the other,
each under the lock, until it finds the queue empty.

A step is what a CPU does between two accesses that another CPU can see: the lock, the queue, the
interrupt command register (`ICR`), and the bits of the local APIC for the vector (`IRR`: pending,
`ISR`: in service).  The APIC delivers what is in the `ICR` of a CPU at any time.  `unblock` is
called for an SC that is blocked, and an SC that is ready blocks at any time: dispatching is left
out, so that the SC that runs counts as ready, too.

The invariant is `Sound`: a CPU is inside the lock of a queue exactly where its place says so, each
SC is in one place (`Sited`), what left a release queue and what is in it is what was released, in
this order, and a release queue that is not empty is going to be looked at (`Rung`).  From it:

* `release_protocol`: the invariant, in terms of the places and the queues;
* `release_drains`: without further calls of `unblock` every run is finite (`work`), and where it
  ends everything that was released is ready, in the order in which it was released.
-/
import Mathlib.Algebra.BigOperators.Fin
import Mathlib.Algebra.Order.BigOperators.Group.Finset
import Nova.Theory.Runs

namespace Nova.Kernel.Release

set_option autoImplicit false

open Nova.Theory.Runs

/-- Where a CPU is.  `out`: in user mode, or elsewhere in the kernel -/
inductive Pc where
  | out
  /-- `Release::enqueue`: constructor of the guard -/
  | acquire (s : Nat)
  | enqueueTail (s : Nat)
  /-- destructor of the guard -/
  | unguard (s : Nat) (notify : Bool)
  | sendCpu (s : Nat)
  /-- `Release::dequeue`, in the loop of `Scheduler::requeue`: constructor of the guard -/
  | lock
  | dequeueHead
  /-- destructor of the guard -/
  | unlock (sc : Option Nat)
  /-- `ready.enqueue` -/
  | ready (s : Nat)
  /-- `Lapic::eoi` -/
  | eoi
deriving DecidableEq, Repr

structure Cpu (k : Nat) where
  pc : Pc := .out
  /-- the destination of the interrupt in `ICR`, while its delivery is pending -/
  icr : Option (Fin k) := none
  irr : Bool := false
  isr : Bool := false
  /-- the release queue, and the CPU that holds its lock -/
  queue : List Nat := []
  lock : Option (Fin k) := none
  /-- the SCs that are ready: in the ready queue, or running -/
  ready : List Nat := []
  /-- what was ever put into the release queue, and what `requeue` made ready -/
  released : List Nat := []
  requeued : List Nat := []
deriving DecidableEq

/-- Where an SC is -/
inductive Site (k : Nat) where
  | blocked
  | held (c : Fin k)
  | queued
  | ready
deriving DecidableEq

/-- `home` is the member `cpu` of the SCs. -/
structure State (k : Nat) where
  cpu : Fin k → Cpu k
  site : Nat → Site k

inductive Event (k : Nat) where
  /-- the next step of a CPU in the kernel -/
  | go (c : Fin k)
  /-- the APIC delivers what is in the `ICR` of `c` -/
  | deliver (c : Fin k)
  /-- `c` takes the interrupt -/
  | take (c : Fin k)
  /-- `c` calls `Scheduler::unblock` -/
  | unblock (c : Fin k) (s : Nat)
  /-- the SC runs and blocks -/
  | block (s : Nat)
deriving DecidableEq, Repr

variable {k : Nat} {home : Nat → Fin k} {m m' : State k} {c d : Fin k} {s : Nat} {e : Event k}

namespace State

def setCpu (m : State k) (c : Fin k) (f : Cpu k → Cpu k) : State k :=
  { m with cpu := fun x => if x = c then f (m.cpu x) else m.cpu x }

def goto (m : State k) (c : Fin k) (pc : Pc) : State k := m.setCpu c fun x => { x with pc }

def setSite (m : State k) (s : Nat) (site : Site k) : State k :=
  { m with site := fun x => if x = s then site else m.site x }

/-- `Ready::enqueue` on `c` -/
def readyEnqueue (m : State k) (c : Fin k) (s : Nat) : State k :=
  (m.setCpu c fun x => { x with ready := x.ready ++ [s] }).setSite s .ready

/-- The next step of a CPU in the kernel; it waits for the lock, and for the delivery of an earlier interrupt. -/
def go (home : Nat → Fin k) (c : Fin k) (m : State k) : Option (State k) :=
  match (m.cpu c).pc with
  | .out => none
  | .acquire s =>
      if (m.cpu (home s)).lock = none then
        some ((m.setCpu (home s) fun x => { x with lock := some c }).goto c (.enqueueTail s))
      else none
  | .enqueueTail s =>
      some (((m.setCpu (home s) fun x => { x with queue := x.queue ++ [s], released := x.released ++ [s] }).setSite s
        .queued).goto c (.unguard s (m.cpu (home s)).queue.isEmpty))
  | .unguard s notify =>
      some ((m.setCpu (home s) fun x => { x with lock := none }).goto c (if notify then .sendCpu s else .out))
  | .sendCpu s =>
      if (m.cpu c).icr = none then some (m.setCpu c fun x => { x with icr := some (home s), pc := .out }) else none
  | .lock =>
      if (m.cpu c).lock = none then some (m.setCpu c fun x => { x with lock := some c, pc := .dequeueHead }) else none
  | .dequeueHead =>
      match (m.cpu c).queue with
      | [] => some (m.goto c (.unlock none))
      | s :: rest => some ((m.setCpu c fun x => { x with queue := rest, pc := .unlock (some s) }).setSite s (.held c))
  | .unlock none => some (m.setCpu c fun x => { x with lock := none, pc := .eoi })
  | .unlock (some s) => some (m.setCpu c fun x => { x with lock := none, pc := .ready s })
  | .ready s => some ((m.readyEnqueue c s).setCpu c fun x => { x with requeued := x.requeued ++ [s], pc := .lock })
  | .eoi => some (m.setCpu c fun x => { x with isr := false, pc := .out })

/-- The APIC of the destination has the interrupt. -/
def deliver (c : Fin k) (m : State k) : Option (State k) :=
  (m.cpu c).icr.map fun d => (m.setCpu c fun x => { x with icr := none }).setCpu d fun x => { x with irr := true }

/-- `Interrupt::handler` for `RRQ` -/
def take (c : Fin k) (m : State k) : Option (State k) :=
  if (m.cpu c).pc = .out ∧ (m.cpu c).irr ∧ ¬ (m.cpu c).isr then
    some (m.setCpu c fun x => { x with irr := false, isr := true, pc := .lock })
  else none

/-- `Scheduler::unblock` -/
def unblock (home : Nat → Fin k) (c : Fin k) (s : Nat) (m : State k) : Option (State k) :=
  if (m.cpu c).pc = .out ∧ m.site s = .blocked then
    if home s = c then some (m.readyEnqueue c s) else some ((m.setSite s (.held c)).goto c (.acquire s))
  else none

/-- The SC leaves the ready queue to run, and blocks. -/
def block (home : Nat → Fin k) (s : Nat) (m : State k) : Option (State k) :=
  if m.site s = .ready then
    some ((m.setCpu (home s) fun x => { x with ready := x.ready.erase s }).setSite s .blocked)
  else none

end State

def step (home : Nat → Fin k) : Event k → State k → Option (State k)
  | .go c, m => m.go home c
  | .deliver c, m => m.deliver c
  | .take c, m => m.take c
  | .unblock c s, m => m.unblock home c s
  | .block s, m => m.block home s

/-- All SCs are blocked. -/
def start (k : Nat) : State k where
  cpu := fun _ => {}
  site := fun _ => .blocked

/-! ## Places -/

namespace Pc

/-- The handler of `RRQ` runs. -/
def handles : Pc → Bool
  | .lock | .dequeueHead | .unlock _ | .ready _ | .eoi => true
  | _ => false

/-- The queue whose lock the CPU `c` holds -/
def inside (home : Nat → Fin k) (c : Fin k) : Pc → Option (Fin k)
  | .enqueueTail s | .unguard s _ => some (home s)
  | .dequeueHead | .unlock _ => some c
  | _ => none

/-- The SC that is neither in a queue nor blocked -/
def carries : Pc → Option Nat
  | .acquire s | .enqueueTail s | .unlock (some s) | .ready s => some s
  | _ => none

/-- The SC that was taken from the release queue and is not ready yet -/
def hand : Pc → List Nat
  | .unlock (some s) | .ready s => [s]
  | _ => []

/-- An SC in the hands of `c`: of another CPU if `c` releases it, and of `c` if it was released. -/
def Fits (home : Nat → Fin k) (c : Fin k) : Pc → Prop
  | .acquire s | .enqueueTail s | .unguard s _ | .sendCpu s => home s ≠ c
  | .unlock (some s) | .ready s => home s = c
  | _ => True

/-- `requeue` looks at the queue again. -/
def looks : Pc → Bool
  | .lock | .dequeueHead | .unlock (some _) | .ready _ => true
  | _ => false

/-- The CPU is about to send `RRQ` to `d`. -/
def Rings (home : Nat → Fin k) (d : Fin k) : Pc → Prop
  | .unguard s true | .sendCpu s => home s = d
  | _ => False

end Pc

namespace State

/-- The release queue of `d` is going to be looked at: `d` is in the loop, `RRQ` is pending, being
delivered, or about to be sent. -/
def Rung (home : Nat → Fin k) (d : Fin k) (m : State k) : Prop :=
  (m.cpu d).pc.looks = true ∨ (m.cpu d).irr = true ∨ (∃ c, (m.cpu c).icr = some d) ∨ ∃ c, (m.cpu c).pc.Rings home d

/-- Each CPU is where its lock and its APIC say. -/
structure Placed (home : Nat → Fin k) (m : State k) : Prop where
  handler : ∀ c, (m.cpu c).isr = (m.cpu c).pc.handles
  locked : ∀ c d, (m.cpu d).lock = some c ↔ (m.cpu c).pc.inside home c = some d
  fits : ∀ c, (m.cpu c).pc.Fits home c
  emptied : ∀ d, (m.cpu d).pc = .unlock none → (m.cpu d).queue = []

/-- Each SC is in one place. -/
structure Sited (home : Nat → Fin k) (m : State k) : Prop where
  held : ∀ c s, m.site s = .held c ↔ (m.cpu c).pc.carries = some s
  queued : ∀ d s, s ∈ (m.cpu d).queue ↔ m.site s = .queued ∧ home s = d
  ready : ∀ d s, s ∈ (m.cpu d).ready ↔ m.site s = .ready ∧ home s = d
  once : ∀ d, (m.cpu d).queue.Nodup ∧ (m.cpu d).ready.Nodup

/-- **Invariant** -/
structure Sound (home : Nat → Fin k) (m : State k) : Prop where
  placed : m.Placed home
  sited : m.Sited home
  log : ∀ d, (m.cpu d).released = (m.cpu d).requeued ++ ((m.cpu d).pc.hand ++ (m.cpu d).queue)
  rung : ∀ d, (m.cpu d).queue ≠ [] → m.Rung home d

end State

/-! ## What a step does -/

section Lemmas

@[simp, grind =] theorem setCpu_cpu (f : Cpu k → Cpu k) (x : Fin k) :
    (m.setCpu c f).cpu x = if x = c then f (m.cpu x) else m.cpu x := rfl

@[simp, grind =] theorem setCpu_site (f : Cpu k → Cpu k) (x : Nat) : (m.setCpu c f).site x = m.site x := rfl

@[simp, grind =] theorem setSite_cpu (site : Site k) (x : Fin k) : (m.setSite s site).cpu x = m.cpu x := rfl

@[simp, grind =] theorem setSite_site (site : Site k) (x : Nat) :
    (m.setSite s site).site x = if x = s then site else m.site x := rfl

@[simp, grind =] theorem goto_cpu (pc : Pc) (x : Fin k) :
    (m.goto c pc).cpu x = if x = c then { m.cpu x with pc } else m.cpu x := rfl

@[simp, grind =] theorem goto_site (pc : Pc) (x : Nat) : (m.goto c pc).site x = m.site x := rfl

@[simp, grind =] theorem readyEnqueue_cpu (x : Fin k) :
    (m.readyEnqueue c s).cpu x = if x = c then { m.cpu x with ready := (m.cpu x).ready ++ [s] } else m.cpu x := rfl

@[simp, grind =] theorem readyEnqueue_site (x : Nat) : (m.readyEnqueue c s).site x = if x = s then .ready else m.site x := rfl

end Lemmas

/-- The steps, by the place of the CPU and what it meets there -/
inductive Move (home : Nat → Fin k) (m : State k) : Event k → State k → Prop where
  | acquire {c : Fin k} {s : Nat} (pc : (m.cpu c).pc = .acquire s) (free : (m.cpu (home s)).lock = none) :
      Move home m (.go c) ((m.setCpu (home s) fun x => { x with lock := some c }).goto c (.enqueueTail s))
  | enqueueTail {c : Fin k} {s : Nat} (pc : (m.cpu c).pc = .enqueueTail s) :
      Move home m (.go c) (((m.setCpu (home s) fun x => { x with queue := x.queue ++ [s], released := x.released ++ [s] }).setSite s
        .queued).goto c (.unguard s (m.cpu (home s)).queue.isEmpty))
  | unguard {c : Fin k} {s : Nat} {notify : Bool} (pc : (m.cpu c).pc = .unguard s notify) :
      Move home m (.go c) ((m.setCpu (home s) fun x => { x with lock := none }).goto c (if notify then .sendCpu s else .out))
  | sendCpu {c : Fin k} {s : Nat} (pc : (m.cpu c).pc = .sendCpu s) (idle : (m.cpu c).icr = none) :
      Move home m (.go c) (m.setCpu c fun x => { x with icr := some (home s), pc := .out })
  | lock {c : Fin k} (pc : (m.cpu c).pc = .lock) (free : (m.cpu c).lock = none) :
      Move home m (.go c) (m.setCpu c fun x => { x with lock := some c, pc := .dequeueHead })
  | empty {c : Fin k} (pc : (m.cpu c).pc = .dequeueHead) (nil : (m.cpu c).queue = []) : Move home m (.go c) (m.goto c (.unlock none))
  | dequeueHead {c : Fin k} {s : Nat} {rest : List Nat} (pc : (m.cpu c).pc = .dequeueHead) (head : (m.cpu c).queue = s :: rest) :
      Move home m (.go c) ((m.setCpu c fun x => { x with queue := rest, pc := .unlock (some s) }).setSite s (.held c))
  | leave {c : Fin k} (pc : (m.cpu c).pc = .unlock none) : Move home m (.go c) (m.setCpu c fun x => { x with lock := none, pc := .eoi })
  | unlock {c : Fin k} {s : Nat} (pc : (m.cpu c).pc = .unlock (some s)) :
      Move home m (.go c) (m.setCpu c fun x => { x with lock := none, pc := .ready s })
  | ready {c : Fin k} {s : Nat} (pc : (m.cpu c).pc = .ready s) :
      Move home m (.go c) ((m.readyEnqueue c s).setCpu c fun x => { x with requeued := x.requeued ++ [s], pc := .lock })
  | eoi {c : Fin k} (pc : (m.cpu c).pc = .eoi) : Move home m (.go c) (m.setCpu c fun x => { x with isr := false, pc := .out })
  | deliver {c d : Fin k} (sent : (m.cpu c).icr = some d) :
      Move home m (.deliver c) ((m.setCpu c fun x => { x with icr := none }).setCpu d fun x => { x with irr := true })
  | take {c : Fin k} (pc : (m.cpu c).pc = .out) (irr : (m.cpu c).irr = true) (isr : (m.cpu c).isr = false) :
      Move home m (.take c) (m.setCpu c fun x => { x with irr := false, isr := true, pc := .lock })
  | local_ {c : Fin k} {s : Nat} (pc : (m.cpu c).pc = .out) (blocked : m.site s = .blocked) (here : home s = c) :
      Move home m (.unblock c s) (m.readyEnqueue c s)
  | unblock {c : Fin k} {s : Nat} (pc : (m.cpu c).pc = .out) (blocked : m.site s = .blocked) (there : home s ≠ c) :
      Move home m (.unblock c s) ((m.setSite s (.held c)).goto c (.acquire s))
  | block {s : Nat} (ready : m.site s = .ready) :
      Move home m (.block s) ((m.setCpu (home s) fun x => { x with ready := x.ready.erase s }).setSite s .blocked)

theorem go_move (done : m.go home c = some m') : Move home m (.go c) m' := by
  unfold State.go at done
  split at done
  · cases done
  · rename_i s pc
    split at done
    · rename_i free
      exact Option.some.inj done ▸ .acquire pc free
    · cases done
  · rename_i s pc
    exact Option.some.inj done ▸ .enqueueTail pc
  · rename_i s notify pc
    exact Option.some.inj done ▸ .unguard pc
  · rename_i s pc
    split at done
    · rename_i idle
      exact Option.some.inj done ▸ .sendCpu pc idle
    · cases done
  · rename_i pc
    split at done
    · rename_i free
      exact Option.some.inj done ▸ .lock pc free
    · cases done
  · rename_i pc
    split at done
    · rename_i nil
      exact Option.some.inj done ▸ .empty pc nil
    · rename_i s rest head
      exact Option.some.inj done ▸ .dequeueHead pc head
  · rename_i pc
    exact Option.some.inj done ▸ .leave pc
  · rename_i s pc
    exact Option.some.inj done ▸ .unlock pc
  · rename_i s pc
    exact Option.some.inj done ▸ .ready pc
  · rename_i pc
    exact Option.some.inj done ▸ .eoi pc

theorem step_move (done : step home e m = some m') : Move home m e m' := by
  cases e with
  | go c => exact go_move done
  | deliver c =>
      obtain ⟨d, sent, rfl⟩ := Option.map_eq_some_iff.mp done
      exact .deliver sent
  | take c =>
      rw [step, State.take] at done
      split at done
      · rename_i can
        exact Option.some.inj done ▸ .take can.1 can.2.1 (by simpa using can.2.2)
      · cases done
  | unblock c s =>
      rw [step, State.unblock] at done
      split at done
      · rename_i can
        split at done
        · rename_i here
          exact Option.some.inj done ▸ .local_ can.1 can.2 here
        · rename_i there
          exact Option.some.inj done ▸ .unblock can.1 can.2 there
      · cases done
  | block s =>
      rw [step, State.block] at done
      split at done
      · rename_i ready
        exact Option.some.inj done ▸ .block ready
      · cases done

/-! ## The invariant -/

namespace State

theorem handler_move (placed : m.Placed home) (move : Move home m e m') (x : Fin k) :
    (m'.cpu x).isr = (m'.cpu x).pc.handles := by
  have handler := placed.handler x
  cases move <;> grind [Pc.handles]

theorem locked_move (placed : m.Placed home) (move : Move home m e m') (x y : Fin k) :
    (m'.cpu y).lock = some x ↔ (m'.cpu x).pc.inside home x = some y := by
  have locked := fun c => placed.locked c y
  cases move <;> grind [Pc.inside]

theorem fits_move (placed : m.Placed home) (sited : m.Sited home) (move : Move home m e m') (x : Fin k) :
    (m'.cpu x).pc.Fits home x := by
  have fits := placed.fits x
  have queued := sited.queued x
  cases move <;> grind [Pc.Fits]

/-- Another CPU does not append to the queue while its owner holds the lock. -/
theorem Placed.unlocks (placed : m.Placed home) (pc : (m.cpu c).pc = .enqueueTail s) (sc : Option Nat) :
    (m.cpu (home s)).pc ≠ .unlock sc := by
  intro same
  have mine := (placed.locked c (home s)).mpr (by rw [pc]; rfl)
  have owns := (placed.locked (home s) (home s)).mpr (by rw [same]; rfl)
  have fits := placed.fits c
  rw [pc] at fits
  exact fits (Option.some.inj (owns.symm.trans mine))

theorem emptied_move (placed : m.Placed home) (move : Move home m e m') (x : Fin k) (pc : (m'.cpu x).pc = .unlock none) :
    (m'.cpu x).queue = [] := by
  have emptied := placed.emptied x
  cases move with
  | enqueueTail at_ =>
      have unlocks := placed.unlocks at_ none
      grind
  | _ => grind

theorem Sited.carried (sited : m.Sited home) {pc : Pc} (at_ : (m.cpu c).pc = pc) (carries : pc.carries = some s) :
    m.site s = .held c := (sited.held c s).mpr (at_ ▸ carries)

theorem held_move (sited : m.Sited home) (move : Move home m e m') (x : Fin k) (y : Nat) :
    m'.site y = .held x ↔ (m'.cpu x).pc.carries = some y := by
  have held := sited.held x y
  cases move with
  | enqueueTail pc =>
      have site := sited.carried pc rfl
      grind [Pc.carries]
  | dequeueHead pc head =>
      have site := sited.queued _ _ |>.mp (head ▸ List.mem_cons_self)
      grind [Pc.carries]
  | ready pc =>
      have site := sited.carried pc rfl
      grind [Pc.carries]
  | _ => grind [Pc.carries]

theorem queued_move (sited : m.Sited home) (move : Move home m e m') (x : Fin k) (y : Nat) :
    y ∈ (m'.cpu x).queue ↔ m'.site y = .queued ∧ home y = x := by
  have queued := sited.queued x y
  cases move with
  | enqueueTail pc =>
      have site := sited.carried pc rfl
      grind
  | dequeueHead pc head =>
      have site := sited.queued _ _ |>.mp (head ▸ List.mem_cons_self)
      have once := (sited.once x).1
      grind
  | ready pc =>
      have site := sited.carried pc rfl
      grind
  | _ => grind

theorem ready_move (placed : m.Placed home) (sited : m.Sited home) (move : Move home m e m') (x : Fin k) (y : Nat) :
    y ∈ (m'.cpu x).ready ↔ m'.site y = .ready ∧ home y = x := by
  have ready := sited.ready x y
  cases move with
  | enqueueTail pc =>
      have site := sited.carried pc rfl
      grind
  | dequeueHead pc head =>
      have site := sited.queued _ _ |>.mp (head ▸ List.mem_cons_self)
      grind
  | @ready c s pc =>
      have site := sited.carried pc rfl
      have fits := placed.fits c
      grind [Pc.Fits]
  | block is =>
      have once := (sited.once x).2
      grind
  | _ => grind

theorem once_move (sited : m.Sited home) (move : Move home m e m') (x : Fin k) :
    (m'.cpu x).queue.Nodup ∧ (m'.cpu x).ready.Nodup := by
  have once := sited.once x
  have queued := sited.queued x
  have ready := sited.ready x
  cases move with
  | enqueueTail pc =>
      have site := sited.carried pc rfl
      grind
  | ready pc =>
      have site := sited.carried pc rfl
      grind
  | _ => grind

theorem log_move (sound : m.Sound home) (move : Move home m e m') (x : Fin k) :
    (m'.cpu x).released = (m'.cpu x).requeued ++ ((m'.cpu x).pc.hand ++ (m'.cpu x).queue) := by
  have log := sound.log x
  have fits := sound.placed.fits
  cases move <;> grind [Pc.hand, Pc.Fits]

theorem rung_move (sound : m.Sound home) (move : Move home m e m') (x : Fin k) (queue : (m'.cpu x).queue ≠ []) :
    m'.Rung home x := by
  have rung := sound.rung x
  cases move with
  | @enqueueTail c s pc =>
      by_cases first : home s = x ∧ (m.cpu x).queue = []
      · obtain ⟨rfl, nil⟩ := first
        exact .inr (.inr (.inr ⟨c, by grind [Pc.Rings]⟩))
      · rcases rung (by grind) with looks | irr | ⟨y, sent⟩ | ⟨y, rings⟩
        · exact .inl (by grind [Pc.looks])
        · exact .inr (.inl (by grind))
        · exact .inr (.inr (.inl ⟨y, by grind⟩))
        · exact .inr (.inr (.inr ⟨y, by grind [Pc.Rings]⟩))
  | @sendCpu c s pc idle =>
      rcases rung (by grind) with looks | irr | ⟨y, sent⟩ | ⟨y, rings⟩
      · exact .inl (by grind [Pc.looks])
      · exact .inr (.inl (by grind))
      · exact .inr (.inr (.inl ⟨y, by grind⟩))
      · by_cases self : y = c
        · exact .inr (.inr (.inl ⟨c, by grind [Pc.Rings]⟩))
        · exact .inr (.inr (.inr ⟨y, by grind⟩))
  | @leave c pc =>
      have emptied := sound.placed.emptied c pc
      rcases rung (by grind) with looks | irr | ⟨y, sent⟩ | ⟨y, rings⟩
      · exact .inl (by grind)
      · exact .inr (.inl (by grind))
      · exact .inr (.inr (.inl ⟨y, by grind⟩))
      · exact .inr (.inr (.inr ⟨y, by grind [Pc.Rings]⟩))
  | @deliver c d sent =>
      rcases rung (by grind) with looks | irr | ⟨y, sent'⟩ | ⟨y, rings⟩
      · exact .inl (by grind)
      · exact .inr (.inl (by grind))
      · by_cases self : y = c
        · exact .inr (.inl (by grind))
        · exact .inr (.inr (.inl ⟨y, by grind⟩))
      · exact .inr (.inr (.inr ⟨y, by grind⟩))
  | @take c pc irr isr =>
      by_cases self : x = c
      · exact .inl (by grind [Pc.looks])
      · rcases rung (by grind) with looks | irr | ⟨y, sent⟩ | ⟨y, rings⟩
        · exact .inl (by grind)
        · exact .inr (.inl (by grind))
        · exact .inr (.inr (.inl ⟨y, by grind⟩))
        · exact .inr (.inr (.inr ⟨y, by grind [Pc.Rings]⟩))
  | _ =>
      rcases rung (by grind) with looks | irr | ⟨y, sent⟩ | ⟨y, rings⟩
      · exact .inl (by grind [Pc.looks])
      · exact .inr (.inl (by grind))
      · exact .inr (.inr (.inl ⟨y, by grind⟩))
      · exact .inr (.inr (.inr ⟨y, by grind [Pc.Rings]⟩))

theorem Sound.move (sound : m.Sound home) (move : Move home m e m') : m'.Sound home where
  placed := ⟨handler_move sound.placed move, locked_move sound.placed move, fits_move sound.placed sound.sited move,
    emptied_move sound.placed move⟩
  sited := ⟨held_move sound.sited move, queued_move sound.sited move, ready_move sound.placed sound.sited move,
    once_move sound.sited move⟩
  log := log_move sound move
  rung := rung_move sound move

end State

/-! ## Runs -/

namespace State

theorem sound_start : (start k).Sound home where
  placed :=
    { handler := fun _ => rfl
      locked := fun _ _ => ⟨nofun, nofun⟩
      fits := fun _ => trivial
      emptied := fun _ _ => rfl }
  sited :=
    { held := fun _ _ => ⟨nofun, nofun⟩
      queued := fun _ _ => ⟨nofun, nofun⟩
      ready := fun _ _ => ⟨nofun, nofun⟩
      once := fun _ => ⟨.nil, .nil⟩ }
  log := fun _ => rfl
  rung := fun _ queue => absurd rfl queue

theorem sound_run {events : List (Event k)} (sound : m.Sound home) (run : runs (step home) m events = some m') :
    m'.Sound home :=
  runs_keeps (fun _ _ _ sound done => sound.move (step_move done)) sound run

/-- Nothing is on its way: every CPU is out of the protocol, and no interrupt is being delivered or pending. -/
def Quiet (m : State k) : Prop := ∀ c, (m.cpu c).pc = .out ∧ (m.cpu c).icr = none ∧ (m.cpu c).irr = false

instance (m : State k) : Decidable m.Quiet := inferInstanceAs (Decidable (∀ _, _))

theorem Sound.quiet_queue (sound : m.Sound home) (quiet : m.Quiet) (d : Fin k) : (m.cpu d).queue = [] := by
  by_contra queue
  rcases sound.rung d queue with looks | irr | ⟨c, sent⟩ | ⟨c, rings⟩
  · rw [(quiet d).1] at looks
    cases looks
  · rw [(quiet d).2.2] at irr
    cases irr
  · rw [(quiet c).2.1] at sent
    cases sent
  · rw [(quiet c).1] at rings
    exact rings

theorem Sound.quiet_ready (sound : m.Sound home) (quiet : m.Quiet) (free : m.site s ≠ .blocked) :
    s ∈ (m.cpu (home s)).ready := by
  refine (sound.sited.ready (home s) s).mpr ⟨?_, rfl⟩
  cases site : m.site s with
  | blocked => exact absurd site free
  | held c =>
      have carries := (sound.sited.held c s).mp site
      rw [(quiet c).1] at carries
      cases carries
  | queued =>
      have member := (sound.sited.queued (home s) s).mpr ⟨site, rfl⟩
      rw [sound.quiet_queue quiet] at member
      cases member
  | ready => rfl

theorem Sound.quiet_log (sound : m.Sound home) (quiet : m.Quiet) (d : Fin k) :
    (m.cpu d).requeued = (m.cpu d).released := by
  rw [sound.log d, (quiet d).1, sound.quiet_queue quiet d]
  simp [Pc.hand]

/-! ## Progress -/

end State

/-- Steps that remain for a CPU, with those of the interrupt that it is about to send and of what it appends -/
def Pc.cost : Pc → Nat
  | .out => 0
  | .acquire _ => 14
  | .enqueueTail _ => 13
  | .unguard _ true => 8
  | .unguard _ false => 1
  | .sendCpu _ => 7
  | .lock => 4
  | .dequeueHead => 3
  | .unlock none => 2
  | .unlock (some _) => 6
  | .ready _ => 5
  | .eoi => 1

/-- Delivering an interrupt and handling it, handling a pending one, one turn for each SC in the release queue -/
def Cpu.cost (x : Cpu k) : Nat :=
  x.pc.cost + (if x.icr.isSome then 6 else 0) + (if x.irr then 5 else 0) + 4 * x.queue.length

/-- The CPU or its APIC does a step, and nobody calls `unblock`. -/
def Event.internal : Event k → Bool
  | .go _ | .deliver _ | .take _ => true
  | .unblock _ _ | .block _ => false

namespace State

/-- The steps that remain -/
def work (m : State k) : Nat := ∑ c, (m.cpu c).cost

theorem work_setCpu (m : State k) (c : Fin k) (f : Cpu k → Cpu k) :
    (m.setCpu c f).work + (m.cpu c).cost = m.work + (f (m.cpu c)).cost := by
  have rest : ∑ x ∈ Finset.univ.erase c, ((m.setCpu c f).cpu x).cost = ∑ x ∈ Finset.univ.erase c, (m.cpu x).cost :=
    Finset.sum_congr rfl fun x member => by rw [setCpu_cpu, if_neg (Finset.ne_of_mem_erase member)]
  have after := Finset.add_sum_erase Finset.univ (fun x => ((m.setCpu c f).cpu x).cost) (Finset.mem_univ c)
  have before := Finset.add_sum_erase Finset.univ (fun x => (m.cpu x).cost) (Finset.mem_univ c)
  rw [setCpu_cpu, if_pos rfl, rest] at after
  unfold work
  omega

theorem work_goto (m : State k) (c : Fin k) (pc : Pc) : (m.goto c pc).work + (m.cpu c).pc.cost = m.work + pc.cost := by
  have work := m.work_setCpu c fun x => { x with pc }
  simp only [Cpu.cost] at work
  unfold goto
  omega

theorem work_readyEnqueue (m : State k) (c : Fin k) (s : Nat) : (m.readyEnqueue c s).work = m.work :=
  Nat.add_right_cancel (m.work_setCpu c fun x => { x with ready := x.ready ++ [s] })

/-- A CPU changes the queue of another one and goes on. -/
theorem work_other (m : State k) (other : d ≠ c) (f : Cpu k → Cpu k) (pc : Pc) :
    ((m.setCpu d f).goto c pc).work + (m.cpu c).pc.cost + (m.cpu d).cost = m.work + pc.cost + (f (m.cpu d)).cost := by
  have changed := m.work_setCpu d f
  have goes := (m.setCpu d f).work_goto c pc
  rw [setCpu_cpu, if_neg (Ne.symm other)] at goes
  omega

theorem work_deliver (sent : (m.cpu c).icr = some d) :
    ((m.setCpu c fun x => { x with icr := none }).setCpu d fun x => { x with irr := true }).work < m.work := by
  have sends := m.work_setCpu c fun x => { x with icr := none }
  have pends := (m.setCpu c fun x => { x with icr := none }).work_setCpu d fun x => { x with irr := true }
  simp only [Cpu.cost, sent, Option.isSome_some, Option.isSome_none, if_true, Bool.false_eq_true, if_false] at sends pends
  split at pends <;> omega

theorem work_move (sound : m.Sound home) (internal : e.internal = true) (move : Move home m e m') : m'.work < m.work := by
  cases move with
  | @acquire c s pc free =>
      have fits := sound.placed.fits c
      rw [pc] at fits
      have work := m.work_other fits (fun x => { x with lock := some c }) (.enqueueTail s)
      rw [pc] at work
      simp only [Cpu.cost, Pc.cost] at work
      omega
  | @enqueueTail c s pc =>
      have fits := sound.placed.fits c
      rw [pc] at fits
      have work := m.work_other fits (fun x => { x with queue := x.queue ++ [s], released := x.released ++ [s] })
        (.unguard s (m.cpu (home s)).queue.isEmpty)
      have notify : (Pc.unguard s (m.cpu (home s)).queue.isEmpty).cost ≤ 8 := by
        cases (m.cpu (home s)).queue.isEmpty <;> simp [Pc.cost]
      rw [pc, show (Pc.enqueueTail s).cost = 13 from rfl] at work
      simp only [Cpu.cost, List.length_append, List.length_singleton] at work
      exact (by omega : ((m.setCpu (home s) fun x => { x with queue := x.queue ++ [s], released := x.released ++ [s] }).goto c
        (.unguard s (m.cpu (home s)).queue.isEmpty)).work < m.work)
  | @unguard c s notify pc =>
      have fits := sound.placed.fits c
      rw [pc] at fits
      have work := m.work_other fits (fun x => { x with lock := none }) (if notify then .sendCpu s else .out)
      rw [pc] at work
      cases notify <;> simp only [Cpu.cost, Pc.cost, if_true, Bool.false_eq_true, if_false] at work ⊢ <;> omega
  | deliver sent => exact work_deliver sent
  | local_ pc blocked here => cases internal
  | unblock pc blocked there => cases internal
  | block is => cases internal
  | @ready c s pc =>
      have goes := (m.readyEnqueue c s).work_setCpu c fun x => { x with requeued := x.requeued ++ [s], pc := .lock }
      have enqueued := m.work_readyEnqueue c s
      simp only [readyEnqueue_cpu, if_pos, Cpu.cost, pc, Pc.cost] at goes
      omega
  | @dequeueHead c s rest pc head =>
      have goes := m.work_setCpu c fun x => { x with queue := rest, pc := .unlock (some s) }
      simp only [Cpu.cost, pc, head, Pc.cost, List.length_cons] at goes
      exact (by omega : (m.setCpu c fun x => { x with queue := rest, pc := .unlock (some s) }).work < m.work)
  | _ => grind [work_setCpu, work_goto, Cpu.cost, Pc.cost]

/-- The holder of a lock goes on. -/
theorem inside_goes (inside : (m.cpu c).pc.inside home c = some d) : m.go home c ≠ none := by
  unfold go
  cases pc : (m.cpu c).pc with
  | unlock sc => cases sc <;> simp
  | dequeueHead => cases (m.cpu c).queue <;> simp
  | enqueueTail s => simp
  | unguard s notify => simp
  | _ =>
      rw [pc] at inside
      cases inside

/-- If the lock is not free, then its holder goes on. -/
theorem Sound.free (sound : m.Sound home) (stuck : ∀ e, e.internal = true → step home e m = none) (d : Fin k) :
    (m.cpu d).lock = none := by
  cases lock : (m.cpu d).lock with
  | none => rfl
  | some c => exact absurd (stuck (.go c) rfl) (inside_goes ((sound.placed.locked c d).mp lock))

/-- **Progress**: where no CPU and no APIC does a step, nothing is on its way. -/
theorem Sound.quiet (sound : m.Sound home) (stuck : ∀ e, e.internal = true → step home e m = none) : m.Quiet := by
  intro c
  have icr : (m.cpu c).icr = none := Option.map_eq_none_iff.mp (stuck (.deliver c) rfl)
  have goes : m.go home c = none := stuck (.go c) rfl
  have pc : (m.cpu c).pc = .out := by
    unfold go at goes
    cases pc : (m.cpu c).pc with
    | out => rfl
    | unlock sc => cases sc <;> simp [pc] at goes
    | dequeueHead => cases queue : (m.cpu c).queue <;> simp [pc, queue] at goes
    | acquire s => simp [pc, sound.free stuck] at goes
    | lock => simp [pc, sound.free stuck] at goes
    | sendCpu s => simp [pc, icr] at goes
    | _ => simp [pc] at goes
  refine ⟨pc, icr, ?_⟩
  have handler := sound.placed.handler c
  have takes : m.take c = none := stuck (.take c) rfl
  rw [pc] at handler
  simpa [take, pc, handler, Pc.handles] using takes

theorem Quiet.stuck (quiet : m.Quiet) (internal : e.internal = true) : step home e m = none := by
  cases e with
  | go c =>
      rw [step, go]
      simp only [(quiet c).1]
  | deliver c => rw [step, deliver, (quiet c).2.1, Option.map_none]
  | take c => simp [step, take, (quiet c).2.2]
  | unblock c s => cases internal
  | block s => cases internal

theorem blocked_move (internal : e.internal = true) (move : Move home m e m') (free : m.site s ≠ .blocked) :
    m'.site s ≠ .blocked := by
  cases move <;> grind [Event.internal]

theorem released_move (move : Move home m e m') (d : Fin k) : (m.cpu d).released <+: (m'.cpu d).released := by
  cases move <;> grind

end State

/-! ## The protocol -/

open State

/-- **The release queues**: in every state each SC that is not blocked is in exactly one place, and in a
ready queue only on its own CPU; what a CPU made ready, what it has in its hands and what is in its release
queue is what was released, in this order; and if the queue is not empty, then `RRQ` is on its way, or the
CPU looks at the queue again. -/
theorem release_protocol (home : Nat → Fin k) (events : List (Event k)) (m : State k)
    (run : runs (step home) (start k) events = some m) :
    (∀ s, m.site s = .blocked ∨ (∃ c, (m.cpu c).pc.carries = some s) ∨ s ∈ (m.cpu (home s)).queue ∨ s ∈ (m.cpu (home s)).ready) ∧
      (∀ d s, s ∈ (m.cpu d).queue → home s = d ∧ s ∉ (m.cpu d).ready ∧ ∀ c, (m.cpu c).pc.carries ≠ some s) ∧
      (∀ d s, s ∈ (m.cpu d).ready → home s = d ∧ ∀ c, (m.cpu c).pc.carries ≠ some s) ∧
      (∀ c d s, (m.cpu c).pc.carries = some s → (m.cpu d).pc.carries = some s → c = d) ∧
      ∀ d, (m.cpu d).queue.Nodup ∧ (m.cpu d).ready.Nodup ∧
        (m.cpu d).released = (m.cpu d).requeued ++ ((m.cpu d).pc.hand ++ (m.cpu d).queue) ∧
        ((m.cpu d).queue ≠ [] → m.Rung home d) := by
  have sound := sound_run sound_start run
  have sited := sound.sited
  refine ⟨fun s => ?_, fun d s queued => ?_, fun d s ready => ?_, fun c d s first second => ?_, fun d => ?_⟩
  · cases site : m.site s with
    | blocked => exact .inl rfl
    | held c => exact .inr (.inl ⟨c, (sited.held c s).mp site⟩)
    | queued => exact .inr (.inr (.inl ((sited.queued _ s).mpr ⟨site, rfl⟩)))
    | ready => exact .inr (.inr (.inr ((sited.ready _ s).mpr ⟨site, rfl⟩)))
  · obtain ⟨site, is⟩ := (sited.queued d s).mp queued
    refine ⟨is, fun ready => ?_, fun c carries => ?_⟩
    · cases site.symm.trans ((sited.ready d s).mp ready).1
    · cases site.symm.trans ((sited.held c s).mpr carries)
  · obtain ⟨site, is⟩ := (sited.ready d s).mp ready
    refine ⟨is, fun c carries => ?_⟩
    cases site.symm.trans ((sited.held c s).mpr carries)
  · cases ((sited.held c s).mpr first).symm.trans ((sited.held d s).mpr second)
    rfl
  · exact ⟨(sited.once d).1, (sited.once d).2, sound.log d, sound.rung d⟩

/-- **No SC is forgotten**: if nobody calls `unblock` any more, then the CPUs and their APICs do at most `work`
steps, in any order, and when they cannot do another one all SCs that were not blocked are ready on their
CPUs; each CPU made ready what was released to it, in this order. -/
theorem release_drains (home : Nat → Fin k) (events later : List (Event k)) (m m' : State k)
    (run : runs (step home) (start k) events = some m) (internal : ∀ e ∈ later, e.internal = true)
    (rest : runs (step home) m later = some m') :
    later.length + m'.work ≤ m.work ∧ ((∀ e, e.internal = true → step home e m' = none) →
      (∀ s, m.site s ≠ .blocked → s ∈ (m'.cpu (home s)).ready) ∧
        ∀ d, (m'.cpu d).queue = [] ∧ (m.cpu d).released <+: (m'.cpu d).requeued) := by
  have sound := sound_run sound_start run
  have sound' := sound_run sound rest
  have legal : Legal (step home) (fun _ e => e.internal = true) m later := Legal.of_mem internal m
  have bound := legal.bounded (I := fun m => m.Sound home) (μ := work)
    (fun _ _ _ sound internal done => ⟨sound.move (step_move done), work_move sound internal (step_move done)⟩) sound rest
  refine ⟨bound, fun stuck => ⟨fun s free => ?_, fun d => ?_⟩⟩
  · have free' := legal.keeps (I := fun m => m.site s ≠ .blocked)
      (fun _ _ _ free internal done => blocked_move internal (step_move done) free) free rest
    exact sound'.quiet_ready (sound'.quiet stuck) free'
  · have released := runs_keeps (I := fun m' => (m.cpu d).released <+: (m'.cpu d).released)
      (fun _ _ _ before done => before.trans (released_move (step_move done) d)) (List.prefix_refl _) rest
    rw [sound'.quiet_log (sound'.quiet stuck)]
    exact ⟨sound'.quiet_queue (sound'.quiet stuck) d, released⟩

local instance pair_neZero : NeZero 2 := ⟨by decide⟩

/-- CPU 0 makes two SCs of CPU 1 ready, and sends `RRQ` for the first one only. -/
def releases : List (Event 2) :=
  [.unblock 0 7, .go 0, .go 0, .go 0, .go 0, .unblock 0 8, .go 0, .go 0, .go 0]

/-- CPU 1 takes the interrupt and finds both. -/
def requeues : List (Event 2) :=
  [.deliver 0, .take 1, .go 1, .go 1, .go 1, .go 1, .go 1, .go 1, .go 1, .go 1, .go 1, .go 1, .go 1, .go 1]

theorem release_protocol_pair : ∃ m, runs (step fun _ => 1) (start 2) releases = some m ∧ (m.cpu 1).queue = [7, 8] ∧
    (m.cpu 0).icr = some 1 ∧ m.Rung (fun _ => 1) 1 := by
  have queue : (runs (step fun _ => 1) (start 2) releases).map (fun m => ((m.cpu 1).queue, (m.cpu 0).icr)) =
      some ([7, 8], some 1) := by decide +kernel
  obtain ⟨m, run, is⟩ := Option.map_eq_some_iff.mp queue
  obtain ⟨queued, sent⟩ := Prod.mk.inj is
  have protocol := release_protocol (fun _ => 1) releases m run
  exact ⟨m, run, queued, sent, (protocol.2.2.2.2 1).2.2.2 (by rw [queued]; exact List.cons_ne_nil _ _)⟩

theorem release_drains_pair : ∃ m m', runs (step fun _ => 1) (start 2) releases = some m ∧
    runs (step fun _ => 1) m requeues = some m' ∧ m.work = 14 ∧ requeues.length + m'.work ≤ 14 ∧
      7 ∈ (m'.cpu 1).ready ∧ [7, 8] <+: (m'.cpu 1).requeued := by
  have before : (runs (step fun _ => 1) (start 2) releases).map (fun m => (m.work, m.site 7, (m.cpu 1).released)) =
      some (14, .queued, [7, 8]) := by decide +kernel
  have after : (runs (step fun _ => 1) (start 2) (releases ++ requeues)).map (fun m' => decide m'.Quiet) =
      some true := by decide +kernel
  obtain ⟨m, run, is⟩ := Option.map_eq_some_iff.mp before
  rw [runs_append, run, Option.bind_some] at after
  obtain ⟨m', rest, quiet⟩ := Option.map_eq_some_iff.mp after
  simp only [Prod.mk.injEq] at is
  obtain ⟨work, site, released⟩ := is
  obtain ⟨bound, drained⟩ := release_drains (fun _ => 1) releases requeues m m' run (by decide) rest
  obtain ⟨ready, queues⟩ := drained fun e internal => Quiet.stuck (of_decide_eq_true quiet) internal
  exact ⟨m, m', run, rest, work, work ▸ bound, ready 7 (by rw [site]; simp), released ▸ (queues 1).2⟩

end Nova.Kernel.Release
