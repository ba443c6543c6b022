/-
# Nova.Kernel.Rcu — deferred callbacks

`src/x86_64/rcu.cpp`, `inc/x86_64/rcu.hpp`: `call` defers a callback until every CPU has
been `quiet` once.  All CPUs share a word `state`, the number of the current batch with a
bit for its completion and a bit for a request of the next one, and a counter `count` of
the CPUs that have not been quiet in the current batch yet.

A step of a CPU goes up to its next access to `state` or `count`; the steps of the CPUs
are interleaved in any order.  The machine does not know how a word looks like (`Words`):
it is studied with words that never overflow, `unbounded`, and Nova.Kernel.RcuWords carries
the result over to the 64 bits of the code.

The books next to the machine: how often every CPU has begun and finished `quiet`, how
often a callback was deferred and invoked, how often each CPU had begun `quiet` when it was
deferred, and which CPUs have started the batches.

`Protocol` is the invariant of the batches: who still owes a `quiet`, and who may start the
next batch.  Nova.Kernel.RcuGrace adds the callbacks.
-/
import Mathlib.Data.Fintype.Card
import Mathlib.Algebra.BigOperators.Group.Finset.Basic
import Nova.Theory.Runs

namespace Nova.Kernel.Rcu

open Nova.Theory.Runs

set_option autoImplicit false

/-- `RCU_CMP` and `RCU_PND` -/
inductive Flag where
  | cmp
  | pnd
deriving DecidableEq, Repr

/-- The arithmetic of `state` (`W`) and of the numbers of batches (`M`) -/
structure Words (W M : Type) where
  /-- `state >> 2` -/
  batch : W → M
  /-- `v & s` -/
  has : Flag → W → Bool
  /-- `v | s` -/
  set : Flag → W → W
  /-- `!((v ^ ~s) & m)` -/
  starts : Flag → W → Bool
  /-- `state + 1` -/
  succ : W → W
  /-- `l_batch + 1` -/
  next : M → M
  complete : W → M → Bool

/-- The next access to the shared variables -/
inductive Pc (W E : Type) where
  | out
  /-- `quiet`: the decrement -/
  | dec
  /-- `start_batch`: `v = state` -/
  | read (f : Flag)
  /-- `start_batch`: the exchange of `v` -/
  | swap (f : Flag) (v : W)
  /-- `start_batch`: `count = Cpu::count` -/
  | reset (f : Flag)
  /-- `start_batch`: the load and the store of `state++` -/
  | fetch (f : Flag)
  | store (f : Flag) (v : W)
  /-- `update`: `l_batch = batch()` -/
  | batch
  /-- `update`: `complete (c_batch)` -/
  | complete
  /-- `invoke_batch` with the callbacks that remain -/
  | invoke (rest : List E)
deriving DecidableEq

/-- Outside of the functions, or in a callback -/
def Pc.calls {W E : Type} : Pc W E → Bool
  | .out | .invoke _ => true
  | _ => false

structure Cpu (W M E : Type) where
  lBatch : M
  cBatch : M
  next : List E
  curr : List E
  done : List E
  hazard : Bool
  pc : Pc W E

namespace Cpu

variable {W M E : Type}

/-- The end of `update` -/
def finish (c : Cpu W M E) : Cpu W M E := { c with pc := if c.done.isEmpty then .out else .invoke c.done }

/-- `start_batch` returns to `quiet` or to `update`. -/
def leave (c : Cpu W M E) : Flag → Cpu W M E
  | .cmp => { c with pc := .out }
  | .pnd => c.finish

/-- `start_batch` after its loop -/
def settle (w : Words W M) (c : Cpu W M E) (f : Flag) (v : W) : Cpu W M E :=
  if w.starts f v then { c with pc := .reset f } else c.leave f

@[simp] theorem leave_lBatch (c : Cpu W M E) (f : Flag) : (c.leave f).lBatch = c.lBatch := by
  cases f <;> rfl

@[simp] theorem leave_hazard (c : Cpu W M E) (f : Flag) : (c.leave f).hazard = c.hazard := by
  cases f <;> rfl

theorem settle_eq (w : Words W M) (c : Cpu W M E) (f : Flag) (v : W) :
    (w.starts f v = true ∧ c.settle w f v = { c with pc := .reset f }) ∨
      (w.starts f v = false ∧ c.settle w f v = c.leave f) := by
  unfold settle
  cases w.starts f v with
  | true => exact .inl ⟨rfl, rfl⟩
  | false => exact .inr ⟨rfl, rfl⟩

/-- `Rcu_list::append`: the tail of an empty list is no place to append to. -/
def append (l l' : List E) : Option (List E) := if l'.isEmpty then none else some (l ++ l')

/-- `update` from the test for completion on, up to `start_batch` or the end -/
def advance (w : Words W M) (state : W) (c : Cpu W M E) : Option (Cpu W M E) := do
  let c ← if !c.curr.isEmpty && w.complete state c.cBatch then do
      let done ← append c.done c.curr
      some { c with done, curr := [] }
    else some c
  if c.curr.isEmpty && !c.next.isEmpty then
    let curr ← append c.curr c.next
    some { c with curr, next := [], cBatch := w.next c.lBatch, pc := .read .pnd }
  else some c.finish

/-- The callbacks that are ready and not yet invoked -/
def held (c : Cpu W M E) : List E :=
  match c.pc with
  | .invoke rest => rest
  | _ => c.done

theorem held_eq {c : Cpu W M E} (not : ∀ rest, c.pc ≠ .invoke rest) : c.held = c.done := by
  unfold held
  cases is : c.pc <;> first | rfl | exact absurd is (not _)

theorem held_finish (c : Cpu W M E) : c.finish.held = c.done := by
  unfold finish
  cases c.done <;> rfl

theorem held_leave (c : Cpu W M E) (f : Flag) : (c.leave f).held = c.done := by
  cases f with
  | cmp => rfl
  | pnd => exact held_finish c

/-- What `update` does with the lists: no empty list is appended. -/
theorem advance_eq (w : Words W M) (state : W) (c : Cpu W M E) : ∃ done curr c',
    ((c.curr ≠ [] ∧ w.complete state c.cBatch = true ∧ done = c.done ++ c.curr ∧ curr = []) ∨
      ((c.curr = [] ∨ w.complete state c.cBatch = false) ∧ done = c.done ∧ curr = c.curr)) ∧
    ((curr = [] ∧ c.next ≠ [] ∧
        c' = { c with done, curr := c.next, next := [], cBatch := w.next c.lBatch, pc := .read .pnd }) ∨
      ((curr ≠ [] ∨ c.next = []) ∧ c' = { c with done, curr }.finish)) ∧
    c.advance w state = some c' := by
  have second : ∀ d : Cpu W M E, d.next = c.next → d.lBatch = c.lBatch → ∃ c',
      ((d.curr = [] ∧ c.next ≠ [] ∧
          c' = { d with curr := c.next, next := [], cBatch := w.next c.lBatch, pc := .read .pnd }) ∨
        ((d.curr ≠ [] ∨ c.next = []) ∧ c' = d.finish)) ∧
      (if d.curr.isEmpty && !d.next.isEmpty then
        (append d.curr d.next).bind fun curr =>
          some { d with curr, next := [], cBatch := w.next d.lBatch, pc := .read .pnd }
      else some d.finish) = some c' := by
    intro d next batch
    cases curr : d.curr with
    | cons e rest => exact ⟨_, .inr ⟨.inl nofun, rfl⟩, rfl⟩
    | nil =>
        cases waits : c.next with
        | nil => exact ⟨_, .inr ⟨.inr rfl, rfl⟩, by simp [next, waits]⟩
        | cons e rest =>
            refine ⟨_, .inl ⟨rfl, nofun, rfl⟩, ?_⟩
            simp [append, next, waits, batch]
  by_cases moves : c.curr ≠ [] ∧ w.complete state c.cBatch = true
  · obtain ⟨c', shape, is⟩ := second { c with done := c.done ++ c.curr, curr := [] } rfl rfl
    refine ⟨c.done ++ c.curr, [], c', .inl ⟨moves.1, moves.2, rfl, rfl⟩, shape, ?_⟩
    unfold advance
    rw [if_pos (by simp [moves.1, moves.2])]
    have some : c.curr.isEmpty = false := by simpa using moves.1
    simp only [append, some]
    exact is
  · obtain ⟨c', shape, is⟩ := second c rfl rfl
    refine ⟨c.done, c.curr, c', .inr ⟨?_, rfl, rfl⟩, shape, ?_⟩
    · by_cases none : c.curr = []
      · exact .inl none
      · refine .inr ?_
        by_contra complete
        exact moves ⟨none, by simpa using complete⟩
    · unfold advance
      rw [if_neg (by simpa using moves)]
      exact is

end Cpu

structure State (n : Nat) (W M E : Type) where
  state : W
  count : Int
  cpu : Fin n → Cpu W M E
  begun : Fin n → Nat
  quieted : Fin n → Nat
  called : E → Nat
  invoked : E → Nat
  since : E → Fin n → Nat
  started : List (Fin n)

inductive Event (n : Nat) (E : Type) where
  | call (i : Fin n) (e : E)
  | update (i : Fin n)
  | quiet (i : Fin n)
  | step (i : Fin n)
deriving DecidableEq

namespace State

variable {n : Nat} {W M E : Type} [DecidableEq W] [DecidableEq M] [DecidableEq E]

def setCpu (s : State n W M E) (i : Fin n) (c : Cpu W M E) : State n W M E := { s with cpu := Function.update s.cpu i c }

def call (i : Fin n) (e : E) (s : State n W M E) : State n W M E :=
  { s.setCpu i { s.cpu i with next := (s.cpu i).next ++ [e] } with
    called := Function.update s.called e (s.called e + 1)
    since := Function.update s.since e s.begun }

/-- `update` up to its first test -/
def update (w : Words W M) (i : Fin n) (s : State n W M E) : State n W M E :=
  s.setCpu i { s.cpu i with pc := if (s.cpu i).lBatch ≠ w.batch s.state then .batch else .complete }

/-- `quiet` up to the decrement -/
def quiet (i : Fin n) (s : State n W M E) : State n W M E :=
  { s.setCpu i { s.cpu i with hazard := false, pc := .dec } with
    begun := Function.update s.begun i (s.begun i + 1) }

/-- The next access of CPU `i` -/
def step (w : Words W M) (i : Fin n) (s : State n W M E) : Option (State n W M E) :=
  let c := s.cpu i
  match c.pc with
  | .out => some s
  | .dec => some
      { s.setCpu i { c with pc := if s.count - 1 = 0 then .read .cmp else .out } with
        count := s.count - 1
        quieted := Function.update s.quieted i (s.quieted i + 1) }
  | .read f => some (s.setCpu i (
      if w.batch s.state ≠ c.lBatch then c.leave f
      else if w.has f s.state then c.settle w f s.state
      else { c with pc := .swap f s.state }))
  | .swap f v => some (
      if s.state = v then { s.setCpu i (c.settle w f v) with state := w.set f v }
      else s.setCpu i { c with pc := .read f })
  | .reset f => some { s.setCpu i { c with pc := .fetch f } with count := n }
  | .fetch f => some (s.setCpu i { c with pc := .store f s.state })
  | .store f v => some { s.setCpu i (c.leave f) with state := w.succ v, started := s.started ++ [i] }
  | .batch => some (s.setCpu i { c with lBatch := w.batch s.state, hazard := true, pc := .complete })
  | .complete => (c.advance w s.state).map (s.setCpu i)
  | .invoke [] => some (s.setCpu i { c with done := [], pc := .out })
  | .invoke (e :: rest) => some
      { s.setCpu i { c with pc := .invoke rest } with invoked := Function.update s.invoked e (s.invoked e + 1) }

def act (w : Words W M) : Event n E → State n W M E → Option (State n W M E)
  | .call i e, s => some (s.call i e)
  | .update i, s => some (s.update w i)
  | .quiet i, s => some (s.quiet i)
  | .step i, s => s.step w i

/-- The callbacks of a CPU that are not yet invoked -/
def waiting (c : Cpu W M E) : List E := c.next ++ c.curr ++ c.held

/-- Callbacks may defer callbacks; `quiet` is called for the hazard that `update` has set. -/
def Allowed (s : State n W M E) : Event n E → Prop
  | .call i e => (s.cpu i).pc.calls = true ∧ ∀ j, e ∉ waiting (s.cpu j)
  | .update i => (s.cpu i).pc = .out
  | .quiet i => (s.cpu i).pc = .out ∧ (s.cpu i).hazard = true
  | .step i => (s.cpu i).pc ≠ .out

instance (s : State n W M E) : ∀ a, Decidable (s.Allowed a)
  | .call i e => inferInstanceAs (Decidable ((s.cpu i).pc.calls = true ∧ ∀ j, e ∉ waiting (s.cpu j)))
  | .update i => inferInstanceAs (Decidable ((s.cpu i).pc = .out))
  | .quiet i => inferInstanceAs (Decidable ((s.cpu i).pc = .out ∧ (s.cpu i).hazard = true))
  | .step i => inferInstanceAs (Decidable ((s.cpu i).pc ≠ .out))

/-- `state = RCU_CMP`, everything else is 0. -/
def start (state : W) (zero : M) : State n W M E where
  state
  count := 0
  cpu _ := ⟨zero, zero, [], [], [], false, .out⟩
  begun _ := 0
  quieted _ := 0
  called _ := 0
  invoked _ := 0
  since _ _ := 0
  started := []

end State

/-! ## Words that do not overflow -/

def Flag.bit : Flag → Nat
  | .cmp => 1
  | .pnd => 2

def unbounded : Words Nat Nat where
  batch v := v / 4
  has f v := v / f.bit % 2 = 1
  set f v := if v / f.bit % 2 = 1 then v else v + f.bit
  starts f v := v % 4 = 3 - f.bit
  succ v := v + 1
  next l := l + 1
  complete v b := v - (if v / 2 % 2 = 1 then 2 else 0) > 4 * b

theorem unbounded_has {f : Flag} {v : Nat} : unbounded.has f v = true ↔ v / f.bit % 2 = 1 := decide_eq_true_iff

theorem unbounded_starts {f : Flag} {v : Nat} : unbounded.starts f v = true ↔ v % 4 = 3 - f.bit := decide_eq_true_iff

/-! ## The batches -/

namespace Pc

variable {W E : Type}

def decs : Pc W E → Bool
  | .dec => true
  | _ => false

/-- On the way to set `RCU_CMP` -/
def closes : Pc W E → Bool
  | .read .cmp | .swap .cmp _ => true
  | _ => false

/-- On the way to start the next batch; `count` has been set -/
def restarts : Pc W E → Bool
  | .fetch _ | .store _ _ => true
  | _ => false

def starts : Pc W E → Bool
  | .reset _ | .fetch _ | .store _ _ => true
  | _ => false

/-- At a place that the batches do not depend on -/
def light : Pc W E → Bool
  | .out | .read .pnd | .complete | .invoke _ => true
  | _ => false

variable {p : Pc W E}

theorem starts_of_restarts (is : p.restarts = true) : p.starts = true := by
  cases p <;> first | rfl | cases is

theorem light_iff : p.light = true ↔ p.decs = false ∧ p.closes = false ∧ p.starts = false ∧ p.restarts = false ∧
    p ≠ .batch ∧ (∀ f v, p ≠ .store f v) ∧ ∀ f v, p ≠ .swap f v := by
  cases p with
  | read f => cases f <;> simp [light, decs, closes, starts, restarts]
  | swap f v => cases f <;> simp [light, decs, closes, starts, restarts]
  | _ => simp [light, decs, closes, starts, restarts]

end Pc

namespace State

variable {n : Nat} {E : Type}

/-- The CPU has not been quiet in the current batch. -/
def Owes (s : State n Nat Nat E) (i : Fin n) : Prop :=
  (s.cpu i).lBatch ≠ s.state / 4 ∨ (s.cpu i).hazard = true ∨ (s.cpu i).pc.decs = true
deriving Decidable

/-- The batches: a CPU that owes a `quiet` keeps the batch from ending, and a batch that has
not ended keeps the next one from being started. -/
structure Protocol (s : State n Nat Nat E) : Prop where
  log : s.state / 4 = s.started.length
  near : ∀ i, (s.cpu i).lBatch = s.state / 4 ∨ (s.cpu i).lBatch + 1 = s.state / 4
  current : ∀ i, (s.cpu i).hazard = true ∨ (s.cpu i).pc.decs = true → (s.cpu i).lBatch = s.state / 4
  behind : ∀ i, (s.cpu i).pc = .batch → (s.cpu i).lBatch ≠ s.state / 4
  decides : ∀ i, (s.cpu i).pc.decs = true → (s.cpu i).hazard = false
  paid : ∀ i, s.quieted i + (if s.Owes i then 1 else 0) = s.state / 4
  begins : ∀ i, s.begun i = s.quieted i + (if (s.cpu i).pc.decs then 1 else 0)
  counts : (∀ i, (s.cpu i).pc.restarts = false) → s.count = (Finset.univ.filter fun i => s.Owes i).card
  recounts : ∀ i, (s.cpu i).pc.restarts = true → s.count = n
  ended : s.state % 2 = 1 → ∀ i, ¬ s.Owes i ∧ (s.cpu i).pc.closes = false
  closing : ∀ i, (s.cpu i).pc.closes = true → ∀ j, ¬ s.Owes j ∧ ((s.cpu j).pc.closes = true → j = i)
  starting : ∀ i, (s.cpu i).pc.starts = true → s.state % 4 = 3 ∧ ∀ j, (s.cpu j).pc.starts = true → j = i
  stores : ∀ i f v, (s.cpu i).pc = .store f v → v = s.state
  swaps : ∀ i f v, (s.cpu i).pc = .swap f v → v / f.bit % 2 ≠ 1 ∧ v / 4 = (s.cpu i).lBatch

variable {s : State n Nat Nat E}

@[simp] theorem setCpu_cpu (s : State n Nat Nat E) (i j : Fin n) (c : Cpu Nat Nat E) :
    (s.setCpu i c).cpu j = if j = i then c else s.cpu j := Function.update_apply s.cpu i c j

theorem start_protocol : Protocol (start 1 0 : State n Nat Nat E) := by
  have paid : ∀ i, ¬ (start 1 0 : State n Nat Nat E).Owes i := fun i owes => by
    rcases owes with late | hazard | decs
    · exact late (by simp [start])
    · cases hazard
    · cases decs
  refine ⟨by simp [start], fun _ => .inl (by simp [start]), fun _ _ => by simp [start], nofun, fun _ _ => rfl, fun i => ?_, fun _ => rfl, fun _ => ?_, nofun,
    fun _ i => ⟨paid i, rfl⟩, nofun, nofun, nofun, nofun⟩
  · rw [if_neg (paid i)]
    simp [start]
  · rw [Finset.filter_false_of_mem fun i _ => paid i]
    rfl

/-- A CPU goes on without a change of what it owes or closes. -/
structure Plain (s : State n Nat Nat E) (i : Fin n) (c : Cpu Nat Nat E) : Prop where
  near : c.lBatch = s.state / 4 ∨ c.lBatch + 1 = s.state / 4
  current : c.hazard = true ∨ c.pc.decs = true → c.lBatch = s.state / 4
  behind : c.pc = .batch → c.lBatch ≠ s.state / 4
  decides : c.pc.decs = true → c.hazard = false
  owes : (c.lBatch ≠ s.state / 4 ∨ c.hazard = true ∨ c.pc.decs = true) ↔ s.Owes i
  closes : c.pc.closes = true → (s.cpu i).pc.closes = true
  starts : c.pc.starts = true → (s.cpu i).pc.starts = true
  stores : ∀ f v, c.pc = .store f v → v = s.state
  swaps : ∀ f v, c.pc = .swap f v → v / f.bit % 2 ≠ 1 ∧ v / 4 = c.lBatch

/-- What holds of the CPU that moves and of the others -/
theorem each_cpu {s' : State n Nat Nat E} {i : Fin n} {c : Cpu Nat Nat E}
    (cpu : ∀ j, s'.cpu j = if j = i then c else s.cpu j) {p : Fin n → Cpu Nat Nat E → Prop} (mine : p i c)
    (others : ∀ j, j ≠ i → p j (s.cpu j)) (j : Fin n) : p j (s'.cpu j) := by
  rw [cpu]
  split
  · rename_i here
    rw [here]
    exact mine
  · rename_i away
    exact others j away

theorem Protocol.plain (protocol : Protocol s) {i : Fin n} {c : Cpu Nat Nat E} (plain : Plain s i c)
    {s' : State n Nat Nat E} (cpus : s'.cpu = Function.update s.cpu i c) (state : s'.state = s.state)
    (quieted : s'.quieted = s.quieted) (started : s'.started = s.started)
    (begun : ∀ j, s'.begun j = s.quieted j + (if (s'.cpu j).pc.decs then 1 else 0))
    (counts : (∀ j, (s'.cpu j).pc.restarts = false) → s'.count = (Finset.univ.filter fun i => s.Owes i).card)
    (recounts : ∀ j, (s'.cpu j).pc.restarts = true → s'.count = n) : Protocol s' := by
  have cpu : ∀ j, s'.cpu j = if j = i then c else s.cpu j := fun j => by
    rw [cpus, Function.update_apply]
  have owes : ∀ j, s'.Owes j ↔ s.Owes j := fun j => by
    unfold Owes
    rw [cpu, state]
    by_cases here : j = i
    · subst here
      rw [if_pos rfl]
      exact plain.owes
    · rw [if_neg here]
  have closes : ∀ j, (s'.cpu j).pc.closes = true → (s.cpu j).pc.closes = true := fun j is => by
    rw [cpu] at is
    split at is
    · rename_i here
      rw [here]
      exact plain.closes is
    · exact is
  have starts : ∀ j, (s'.cpu j).pc.starts = true → (s.cpu j).pc.starts = true := fun j is => by
    rw [cpu] at is
    split at is
    · rename_i here
      rw [here]
      exact plain.starts is
    · exact is
  have each : ∀ {p : Fin n → Cpu Nat Nat E → Prop}, p i c → (∀ j, p j (s.cpu j)) → ∀ j, p j (s'.cpu j) :=
    fun mine others => each_cpu cpu mine fun j _ => others j
  refine ⟨by rw [state, started, protocol.log], ?_, ?_, ?_, ?_, fun j => ?_, fun j => ?_, fun none => ?_, recounts,
    fun is j => ?_, fun j is k => ?_, fun j is => ?_, ?_, ?_⟩
  · rw [state]
    exact each (p := fun _ c => c.lBatch = s.state / 4 ∨ c.lBatch + 1 = s.state / 4) plain.near protocol.near
  · rw [state]
    exact each (p := fun _ c => c.hazard = true ∨ c.pc.decs = true → c.lBatch = s.state / 4) plain.current protocol.current
  · rw [state]
    exact each (p := fun _ c => c.pc = .batch → c.lBatch ≠ s.state / 4) plain.behind protocol.behind
  · exact each (p := fun _ c => c.pc.decs = true → c.hazard = false) plain.decides protocol.decides
  · rw [quieted, state]
    simp only [owes]
    exact protocol.paid j
  · rw [begun, quieted]
  · simp only [owes]
    exact counts none
  · rw [state] at is
    obtain ⟨paid, open_⟩ := protocol.ended is j
    refine ⟨fun owing => paid ((owes j).mp owing), ?_⟩
    by_contra closing
    rw [closes j (by simpa using closing)] at open_
    cases open_
  · obtain ⟨paid, alone⟩ := protocol.closing j (closes j is) k
    exact ⟨fun owing => paid ((owes k).mp owing), fun also => alone (closes k also)⟩
  · rw [state]
    obtain ⟨both, alone⟩ := protocol.starting j (starts j is)
    exact ⟨both, fun k also => alone k (starts k also)⟩
  · rw [state]
    exact each (p := fun _ c => ∀ f v, c.pc = .store f v → v = s.state) plain.stores protocol.stores
  · exact each (p := fun _ c => ∀ f v, c.pc = .swap f v → v / f.bit % 2 ≠ 1 ∧ v / 4 = c.lBatch) plain.swaps protocol.swaps

theorem Protocol.light (protocol : Protocol s) {i : Fin n} {c : Cpu Nat Nat E} (light : c.pc.light = true)
    (same : c.lBatch = (s.cpu i).lBatch) (hazard : c.hazard = (s.cpu i).hazard) (decs : (s.cpu i).pc.decs = false) :
    Plain s i c := by
  obtain ⟨decs', closes', starts', -, batch', store', swap'⟩ := Pc.light_iff.mp light
  refine ⟨same ▸ protocol.near i, fun is => ?_, fun is => absurd is batch', fun is => ?_, ?_, fun is => ?_, fun is => ?_,
    fun f v is => absurd is (store' f v), fun f v is => absurd is (swap' f v)⟩
  · rw [same]
    rw [hazard, decs'] at is
    exact protocol.current i (is.imp_right nofun)
  · rw [decs'] at is
    cases is
  · unfold Owes
    rw [same, hazard, decs, decs']
  · rw [closes'] at is
    cases is
  · rw [starts'] at is
    cases is

theorem light_finish (c : Cpu Nat Nat E) : c.finish.pc.light = true := by
  unfold Cpu.finish
  dsimp only
  split <;> rfl

theorem light_leave (c : Cpu Nat Nat E) (f : Flag) : (c.leave f).pc.light = true := by
  cases f with
  | cmp => rfl
  | pnd => exact light_finish c

/-- A plain step that leaves the counter alone -/
theorem Protocol.uncounted (protocol : Protocol s) {i : Fin n} {c : Cpu Nat Nat E} (plain : Plain s i c)
    (restarts : c.pc.restarts = (s.cpu i).pc.restarts)
    {s' : State n Nat Nat E} (cpus : s'.cpu = Function.update s.cpu i c) (state : s'.state = s.state)
    (count : s'.count = s.count) (quieted : s'.quieted = s.quieted) (started : s'.started = s.started)
    (begun : ∀ j, s'.begun j = s.quieted j + (if (s'.cpu j).pc.decs then 1 else 0)) : Protocol s' := by
  have same : ∀ j, (s'.cpu j).pc.restarts = (s.cpu j).pc.restarts := fun j => by
    rw [cpus]
    by_cases here : j = i
    · subst here
      rw [Function.update_self, restarts]
    · rw [Function.update_of_ne here]
  refine protocol.plain plain cpus state quieted started begun (fun none => ?_) fun j is => ?_
  · rw [count]
    exact protocol.counts fun j => (same j).symm.trans (none j)
  · rw [count]
    exact protocol.recounts j ((same j).symm.trans is)

/-- The number of calls of `quiet` when none is begun or finished -/
theorem Protocol.unbegun (protocol : Protocol s) {i : Fin n} {c : Cpu Nat Nat E} (decs : c.pc.decs = (s.cpu i).pc.decs)
    {s' : State n Nat Nat E} (cpus : s'.cpu = Function.update s.cpu i c) (begun : s'.begun = s.begun) (j : Fin n) :
    s'.begun j = s.quieted j + (if (s'.cpu j).pc.decs then 1 else 0) := by
  rw [begun, protocol.begins, cpus]
  by_cases here : j = i
  · subst here
    rw [Function.update_self, decs]
  · rw [Function.update_of_ne here]

theorem Protocol.quiet (protocol : Protocol s) {i : Fin n} (hazard : (s.cpu i).hazard = true) (out : (s.cpu i).pc = .out) :
    Protocol (s.quiet i) := by
  have now : (s.cpu i).lBatch = s.state / 4 := protocol.current i (.inl hazard)
  refine protocol.uncounted (i := i) (c := { s.cpu i with hazard := false, pc := .dec })
    ⟨protocol.near i, fun _ => now, nofun, fun _ => rfl, ?_, nofun, nofun, nofun, nofun⟩ (by rw [out]; rfl)
    rfl rfl rfl rfl rfl fun j => ?_
  · exact ⟨fun _ => .inr (.inl hazard), fun _ => .inr (.inr rfl)⟩
  · show Function.update s.begun i (s.begun i + 1) j = _ + if (Function.update s.cpu i _ j).pc.decs then 1 else 0
    by_cases here : j = i
    · subst here
      rw [Function.update_self, Function.update_self, protocol.begins, out]
      rfl
    · rw [Function.update_of_ne here, Function.update_of_ne here, protocol.begins]

/-- While a CPU owes a `quiet` the batch goes on. -/
theorem Protocol.open_ (protocol : Protocol s) {i : Fin n} (owes : s.Owes i) :
    s.state % 2 ≠ 1 ∧ (∀ j, (s.cpu j).pc.closes = false) ∧ (∀ j, (s.cpu j).pc.starts = false) ∧
      s.count = (Finset.univ.filter fun i => s.Owes i).card := by
  have running : s.state % 2 ≠ 1 := fun is => (protocol.ended is i).1 owes
  have starts : ∀ j, (s.cpu j).pc.starts = false := fun j => by
    by_contra is
    have both := (protocol.starting j (by simpa using is)).1
    omega
  refine ⟨running, fun j => ?_, starts, protocol.counts fun j => ?_⟩
  · by_contra is
    exact (protocol.closing j (by simpa using is) i).1 owes
  · by_contra is
    have starting := starts j
    rw [Pc.starts_of_restarts (by simpa using is)] at starting
    cases starting

theorem Protocol.dec (protocol : Protocol s) {i : Fin n} (at_ : (s.cpu i).pc = .dec) :
    Protocol { s.setCpu i { s.cpu i with pc := if s.count - 1 = 0 then .read .cmp else .out } with
      count := s.count - 1
      quieted := Function.update s.quieted i (s.quieted i + 1) } := by
  have decs : (s.cpu i).pc.decs = true := by
    rw [at_]
    rfl
  have owes : s.Owes i := .inr (.inr decs)
  have now : (s.cpu i).lBatch = s.state / 4 := protocol.current i (.inr decs)
  have hazard : (s.cpu i).hazard = false := protocol.decides i decs
  obtain ⟨running, closes, starts, count⟩ := protocol.open_ owes
  generalize new : (if s.count - 1 = 0 then Pc.read .cmp else Pc.out : Pc Nat E) = p
  have notDecs : p.decs = false := by
    subst new
    split <;> rfl
  have notStarts : p.starts = false := by
    subst new
    split <;> rfl
  have notRestarts : p.restarts = false := by
    subst new
    split <;> rfl
  have closesOnly : p.closes = true → s.count - 1 = 0 := fun is => by
    subst new
    by_contra more
    rw [if_neg more] at is
    cases is
  let s' : State n Nat Nat E := { s.setCpu i { s.cpu i with pc := p } with
    count := s.count - 1
    quieted := Function.update s.quieted i (s.quieted i + 1) }
  show Protocol s'
  have cpu : ∀ j, s'.cpu j = if j = i then { s.cpu i with pc := p } else s.cpu j := fun j => setCpu_cpu s i j _
  have owes' : ∀ j, s'.Owes j ↔ s.Owes j ∧ j ≠ i := fun j => by
    unfold Owes
    rw [cpu, show s'.state = s.state from rfl]
    by_cases here : j = i
    · subst here
      simp [now, hazard, notDecs]
    · simp [here]
  have fewer : (s'.count : Int) = (Finset.univ.filter fun j => s'.Owes j).card := by
    have erase : (Finset.univ.filter fun j => s'.Owes j) = (Finset.univ.filter fun j => s.Owes j).erase i := by
      ext j
      simp [owes', and_comm]
    have mem : i ∈ Finset.univ.filter fun j => s.Owes j := by simpa using owes
    rw [erase, Finset.card_erase_of_mem mem]
    have some := Finset.card_pos.mpr ⟨i, mem⟩
    show s.count - 1 = _
    omega
  have none : s.count - 1 = 0 → ∀ j, ¬ s'.Owes j := fun zero j is => by
    have empty : (Finset.univ.filter fun j => s'.Owes j).card = 0 := by
      have : s'.count = 0 := zero
      omega
    exact Finset.notMem_empty j (Finset.card_eq_zero.mp empty ▸ (by simpa using is))
  have notClosing : ∀ j, (s'.cpu j).pc.closes = true → j = i := fun j is => by
    by_contra away
    rw [cpu, if_neg away, closes] at is
    cases is
  have notStarting : ∀ j, (s'.cpu j).pc.starts = false := 
    each_cpu cpu (p := fun _ c => c.pc.starts = false) notStarts fun j _ => starts j
  refine ⟨protocol.log, each_cpu cpu (p := fun _ c => c.lBatch = s.state / 4 ∨ c.lBatch + 1 = s.state / 4) (.inl now)
      fun j _ => protocol.near j,
    each_cpu cpu (p := fun _ c => c.hazard = true ∨ c.pc.decs = true → c.lBatch = s.state / 4) (fun _ => now)
      fun j _ => protocol.current j,
    each_cpu cpu (p := fun _ c => c.pc = .batch → c.lBatch ≠ s.state / 4) (fun is => ?_) fun j _ => protocol.behind j,
    each_cpu cpu (p := fun _ c => c.pc.decs = true → c.hazard = false) (fun _ => hazard) fun j _ => protocol.decides j,
    fun j => ?_, fun j => ?_, fun _ => fewer, fun j is => ?_, fun is => absurd is running, fun j is k => ?_, fun j is => ?_,
    fun j f v is => ?_, each_cpu cpu (p := fun _ c => ∀ f v, c.pc = .swap f v → v / f.bit % 2 ≠ 1 ∧ v / 4 = c.lBatch) (fun f v is => ?_)
      fun j _ => protocol.swaps j⟩
  · subst new
    dsimp only at is
    split at is <;> cases is
  · have paid := protocol.paid j
    show Function.update s.quieted i (s.quieted i + 1) j + _ = s.state / 4
    by_cases here : j = i
    · subst here
      rw [if_pos owes] at paid
      rw [Function.update_self, if_neg fun is => ((owes' j).mp is).2 rfl]
      exact paid
    · rw [Function.update_of_ne here]
      simpa [owes', here] using paid
  · have begins := protocol.begins j
    show s.begun j = Function.update s.quieted i (s.quieted i + 1) j + if (s'.cpu j).pc.decs then 1 else 0
    rw [cpu]
    by_cases here : j = i
    · subst here
      rw [decs] at begins
      simp [notDecs, begins]
    · simpa [here] using begins
  · have not := notStarting j
    rw [Pc.starts_of_restarts is] at not
    cases not
  · obtain rfl := notClosing j is
    have zero : s.count - 1 = 0 := closesOnly (by rwa [cpu, if_pos rfl] at is)
    exact ⟨none zero k, notClosing k⟩
  · rw [notStarting j] at is
    cases is
  · have not := notStarting j
    rw [is] at not
    cases not
  · subst new
    dsimp only at is
    split at is <;> cases is

theorem Protocol.swap (protocol : Protocol s) {i : Fin n} {f : Flag} (at_ : (s.cpu i).pc = .swap f s.state) :
    Protocol { s.setCpu i ((s.cpu i).settle unbounded f s.state) with state := unbounded.set f s.state } := by
  have clear : s.state / f.bit % 2 ≠ 1 := (protocol.swaps i f s.state at_).1
  have value : unbounded.set f s.state = s.state + f.bit := if_neg clear
  have batch : (s.state + f.bit) / 4 = s.state / 4 := by
    cases f <;> simp only [Flag.bit] at clear ⊢ <;> omega
  have noStart : ∀ j, (s.cpu j).pc.starts = false := fun j => by
    by_contra is
    have both := (protocol.starting j (by simpa using is)).1
    cases f <;> simp only [Flag.bit] at clear <;> omega
  generalize new : (s.cpu i).settle unbounded f s.state = c
  obtain ⟨same, hazard, decs, closes, restarts, batch', store', swap', starts⟩ :
      c.lBatch = (s.cpu i).lBatch ∧ c.hazard = (s.cpu i).hazard ∧ c.pc.decs = false ∧ c.pc.closes = false ∧
        c.pc.restarts = false ∧ c.pc ≠ .batch ∧ (∀ f v, c.pc ≠ .store f v) ∧ (∀ f v, c.pc ≠ .swap f v) ∧
        (c.pc.starts = true → (s.state + f.bit) % 4 = 3) := by
    subst new
    rcases Cpu.settle_eq unbounded (s.cpu i) f s.state with ⟨second, is⟩ | ⟨-, is⟩
    · rw [is]
      refine ⟨rfl, rfl, rfl, rfl, rfl, nofun, nofun, nofun, fun _ => ?_⟩
      have two := unbounded_starts.mp second
      cases f <;> simp only [Flag.bit] at two ⊢ <;> omega
    · rw [is]
      obtain ⟨decs, closes, starts, restarts, batch', store', swap'⟩ := Pc.light_iff.mp (light_leave (s.cpu i) f)
      refine ⟨Cpu.leave_lBatch _ _, Cpu.leave_hazard _ _, decs, closes, restarts, batch', store', swap', fun is => ?_⟩
      rw [starts] at is
      cases is
  rw [value]
  have wasDecs : (s.cpu i).pc.decs = false := by
    rw [at_]
    rfl
  let s' : State n Nat Nat E := { s.setCpu i c with state := s.state + f.bit }
  show Protocol s'
  have cpu : ∀ j, s'.cpu j = if j = i then c else s.cpu j := fun j => setCpu_cpu s i j _
  have number : s'.state / 4 = s.state / 4 := batch
  have owes : ∀ j, s'.Owes j ↔ s.Owes j := fun j => by
    unfold Owes
    rw [cpu, number]
    by_cases here : j = i
    · subst here
      rw [if_pos rfl, same, hazard, decs, wasDecs]
    · rw [if_neg here]
  have closes' : ∀ j, (s'.cpu j).pc.closes = true → j ≠ i ∧ (s.cpu j).pc.closes = true := fun j is => by
    rw [cpu] at is
    split at is
    · rw [closes] at is
      cases is
    · exact ⟨‹_›, is⟩
  have starts' : ∀ j, (s'.cpu j).pc.starts = true → j = i ∧ (s.state + f.bit) % 4 = 3 := fun j is => by
    rw [cpu] at is
    split at is
    · exact ⟨‹_›, starts is⟩
    · rw [noStart] at is
      cases is
  have restarts' : ∀ j, (s'.cpu j).pc.restarts = false :=
    each_cpu cpu (p := fun _ c => c.pc.restarts = false) restarts fun j _ => by
      by_contra is
      have not := noStart j
      rw [Pc.starts_of_restarts (by simpa using is)] at not
      cases not
  refine ⟨number.trans protocol.log, ?_, ?_, ?_, ?_, fun j => ?_, fun j => ?_, fun _ => ?_, fun j is => ?_,
    fun is j => ?_, fun j is k => ?_, fun j is => ?_, fun j g v is => ?_, ?_⟩
  · rw [number]
    exact each_cpu cpu (p := fun _ c => c.lBatch = s.state / 4 ∨ c.lBatch + 1 = s.state / 4)
      (same ▸ protocol.near i) fun j _ => protocol.near j
  · rw [number]
    refine each_cpu cpu (p := fun _ c => c.hazard = true ∨ c.pc.decs = true → c.lBatch = s.state / 4) (fun is => ?_)
      fun j _ => protocol.current j
    rw [hazard, decs] at is
    rw [same]
    exact protocol.current i (is.imp_right nofun)
  · rw [number]
    exact each_cpu cpu (p := fun _ c => c.pc = .batch → c.lBatch ≠ s.state / 4) (fun is => absurd is batch')
      fun j _ => protocol.behind j
  · refine each_cpu cpu (p := fun _ c => c.pc.decs = true → c.hazard = false) (fun is => ?_) fun j _ => protocol.decides j
    rw [decs] at is
    cases is
  · rw [number]
    simp only [owes]
    exact protocol.paid j
  · have begins := protocol.begins j
    rw [cpu]
    by_cases here : j = i
    · subst here
      rw [wasDecs] at begins
      rw [if_pos rfl, decs]
      exact begins
    · rw [if_neg here]
      exact begins
  · simp only [owes]
    refine protocol.counts fun j => ?_
    by_contra is
    have not := noStart j
    rw [Pc.starts_of_restarts (by simpa using is)] at not
    cases not
  · rw [restarts' j] at is
    cases is
  · have paid : ∀ k, ¬ s.Owes k ∧ ((s.cpu k).pc.closes = true → k = i) := by
      cases f with
      | cmp => exact protocol.closing i (by rw [at_]; rfl)
      | pnd =>
          intro k
          have before : s.state % 2 = 1 := by
            have : (s.state + 2) % 2 = 1 := is
            omega
          obtain ⟨none, open_⟩ := protocol.ended before k
          refine ⟨none, fun closing => ?_⟩
          rw [open_] at closing
          cases closing
    refine ⟨fun owing => (paid j).1 ((owes j).mp owing), ?_⟩
    by_contra closing
    obtain ⟨away, was⟩ := closes' j (by simpa using closing)
    exact away ((paid j).2 was)
  · obtain ⟨-, was⟩ := closes' j is
    obtain ⟨none, alone⟩ := protocol.closing j was k
    exact ⟨fun owing => none ((owes k).mp owing), fun also => alone (closes' k also).2⟩
  · obtain ⟨rfl, both⟩ := starts' j is
    exact ⟨both, fun k also => (starts' k also).1⟩
  · have not := restarts' j
    rw [is] at not
    cases not
  · exact each_cpu cpu (p := fun _ c => ∀ f v, c.pc = .swap f v → v / f.bit % 2 ≠ 1 ∧ v / 4 = c.lBatch) (fun f v is => absurd is (swap' f v))
      fun j _ => protocol.swaps j

theorem Protocol.reset (protocol : Protocol s) {i : Fin n} {f : Flag} (at_ : (s.cpu i).pc = .reset f) :
    Protocol { s.setCpu i { s.cpu i with pc := .fetch f } with count := n } := by
  have starts : (s.cpu i).pc.starts = true := by
    rw [at_]
    rfl
  have ended : s.state % 2 = 1 := by
    have both := (protocol.starting i starts).1
    omega
  have paid := (protocol.ended ended i).1
  refine protocol.plain (i := i) (c := { s.cpu i with pc := .fetch f })
    ⟨protocol.near i, fun is => ?_, nofun, nofun, ?_, nofun, fun _ => starts, nofun, nofun⟩ rfl rfl rfl rfl
    (protocol.unbegun (by rw [at_]; rfl) rfl rfl) (fun none => ?_) fun _ _ => rfl
  · exact protocol.current i (is.imp_right nofun)
  · unfold Owes
    rw [at_]
    rfl
  · have not := none i
    rw [show ({ s.setCpu i { s.cpu i with pc := .fetch f } with count := n } : State n Nat Nat E).cpu i = _ from
      Function.update_self i _ s.cpu] at not
    cases not

theorem Protocol.store (protocol : Protocol s) {i : Fin n} {f : Flag} (at_ : (s.cpu i).pc = .store f s.state) :
    Protocol { s.setCpu i ((s.cpu i).leave f) with state := s.state + 1, started := s.started ++ [i] } := by
  have starts : (s.cpu i).pc.starts = true := by
    rw [at_]
    rfl
  have count : s.count = n := protocol.recounts i (by rw [at_]; rfl)
  obtain ⟨both, alone⟩ := protocol.starting i starts
  have ended : s.state % 2 = 1 := by omega
  have batch : (s.state + 1) / 4 = s.state / 4 + 1 := by omega
  obtain ⟨decs, closes, notStarts, restarts, batch', store', swap'⟩ := Pc.light_iff.mp (light_leave (s.cpu i) f)
  -- everybody has been quiet, so everybody has seen the batch that ends
  have paid : ∀ j, (s.cpu j).lBatch = s.state / 4 ∧ (s.cpu j).hazard = false ∧ (s.cpu j).pc.decs = false := fun j => by
    have none := (protocol.ended ended j).1
    unfold Owes at none
    simpa using none
  let s' : State n Nat Nat E := { s.setCpu i ((s.cpu i).leave f) with state := s.state + 1, started := s.started ++ [i] }
  show Protocol s'
  have cpu : ∀ j, s'.cpu j = if j = i then (s.cpu i).leave f else s.cpu j := fun j => setCpu_cpu s i j _
  have number : s'.state / 4 = s.state / 4 + 1 := batch
  have behind : ∀ j, (s'.cpu j).lBatch = s.state / 4 :=
    each_cpu cpu (p := fun _ c => c.lBatch = s.state / 4) (by rw [Cpu.leave_lBatch]; exact (paid i).1) fun j _ => (paid j).1
  have hazard : ∀ j, (s'.cpu j).hazard = false :=
    each_cpu cpu (p := fun _ c => c.hazard = false) (by rw [Cpu.leave_hazard]; exact (paid i).2.1) fun j _ => (paid j).2.1
  have decs' : ∀ j, (s'.cpu j).pc.decs = false := each_cpu cpu (p := fun _ c => c.pc.decs = false) decs fun j _ => (paid j).2.2
  have owes : ∀ j, s'.Owes j := fun j => by
    refine .inl ?_
    rw [behind, number]
    omega
  have idle : ∀ j, (s'.cpu j).pc.starts = false := each_cpu cpu (p := fun _ c => c.pc.starts = false) notStarts fun j away => by
    by_contra is
    exact away (alone j (by simpa using is))
  have open_ : ∀ j, (s'.cpu j).pc.closes = false :=
    each_cpu cpu (p := fun _ c => c.pc.closes = false) closes fun j _ => (protocol.ended ended j).2
  refine ⟨?_, fun j => .inr ?_, fun j is => ?_, fun j _ => ?_, fun j _ => hazard j, fun j => ?_, fun j => ?_, fun _ => ?_,
    fun _ _ => count, fun is => ?_, fun j is => ?_, fun j is => ?_, fun j g v is => ?_, ?_⟩
  · rw [number, protocol.log]
    show _ = (s.started ++ [i]).length
    rw [List.length_append]
    rfl
  · rw [behind, number]
  · rw [hazard, decs'] at is
    rcases is with is | is <;> cases is
  · rw [behind, number]
    omega
  · have before := protocol.paid j
    rw [if_neg (protocol.ended ended j).1] at before
    rw [if_pos (owes j), number]
    exact congrArg (· + 1) before
  · have begins := protocol.begins j
    rw [(paid j).2.2] at begins
    rw [decs']
    exact begins
  · rw [Finset.filter_true_of_mem fun j _ => owes j, Finset.card_univ, Fintype.card_fin]
    exact count
  · have odd : (s.state + 1) % 2 = 1 := is
    omega
  · rw [open_] at is
    cases is
  · rw [idle] at is
    cases is
  · have not := idle j
    rw [is] at not
    cases not
  · exact each_cpu cpu (p := fun _ c => ∀ f v, c.pc = .swap f v → v / f.bit % 2 ≠ 1 ∧ v / 4 = c.lBatch) (fun f v is => absurd is (swap' f v))
      fun j _ => protocol.swaps j

end State

end Nova.Kernel.Rcu
