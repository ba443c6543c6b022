/-
# Nova.Kernel.Sync — semaphores and wake-ups

The queue of a semaphore changes in four ways only (`SmStep`): an EC blocks and is
appended, the first EC is released by an up, and an EC is taken out by its timeout.  An EC
that was released keeps the continuation that tells how, until it runs.

The second part is about the SCs that wait in the queue of an EC: they are never forgotten,
although `up` and `timeout` change the continuation outside of the lock of that queue.
-/
import Nova.Kernel.Continuation

namespace Nova.Kernel.Contexts

open Nova.Theory.Chains
open Nova.Theory.Runs

set_option autoImplicit false

variable {n k : Nat}

namespace Machine

section Steps

variable (m m' : Machine n k) (c : Fin k) (i : Nat)

/-- The EC is released from semaphore `i` and continues at `g`. -/
inductive Releases (e : Fin n) : Cont → Prop
  | up (rest : List (Fin n)) : (m.sm i).queue = e :: rest → (m'.sm i).queue = rest → (m'.sm i).ups = (m.sm i).ups + 1 →
      (m'.ec e).token = some i → Releases e (.sysFinish .success true)
  | timeout : (m.ec e).timeout = some i → (m.ec e).armed = (m.ec e).blocks → (m'.ec e).timeout = none →
      m'.sm i = { m.sm i with queue := (m.sm i).queue.erase e } → (m'.ec e).token = none →
      Releases e (.sysFinish .timeout false)

/-- What a step of CPU `c` does to the waiters of semaphore `i` -/
inductive SmStep : Prop
  | same : (m'.sm i).queue = (m.sm i).queue → SmStep
  | dn : (m.sm i).counter = 0 → (m.ec (m.self c)).timeout = none → (m'.sm i).queue = (m.sm i).queue ++ [m.self c] →
      (m'.ec (m.self c)).ticket = (m.sm i).arrivals → (m'.ec (m.self c)).blocks = (m.ec (m.self c)).blocks + 1 →
      (m'.ec (m.self c)).cont = some .blocking → SmStep
  | release {e : Fin n} {g : Cont} : e ∈ (m.sm i).queue → Releases m m' i e g → (m'.ec e).cont = some g →
      (m'.ec e).unblocks = (m.ec e).unblocks + 1 → SmStep

end Steps

variable {cfg : Config n k} {count : Nat → Nat} {m m' : Machine n k} {c : Fin k}

theorem Move.smStep (move : Move cfg m c m') (sound : Sound cfg count m) (i : Nat) : SmStep m m' c i := by
  cases move with
  | @finish j pc token =>
      refine .same ?_
      by_cases here : i = j
      · subst here
        simp
      · simp [here]
  | @take j zero pc positive =>
      refine .same ?_
      by_cases here : i = j
      · subst here
        simp
      · simp [here]
  | @count j back raises empty room =>
      refine .same ?_
      by_cases here : i = j
      · subst here
        simp
      · simp [here]
  | @suspend j timed pc utcb zero =>
      by_cases here : i = j
      · subst here
        have clean := sound.waits.clean (c := c) (by rw [pc]; rfl)
        exact .dn zero clean.1 (by simp) (by simp) (by simp) (by simp)
      · exact .same (by simp [here])
  | @release j back e rest raises queue =>
      by_cases here : i = j
      · subst here
        have member : e ∈ (m.sm i).queue := by
          rw [queue]
          exact List.mem_cons_self
        exact .release member (.up rest queue (by simp) (by simp) (by simp)) (by simp) (by simp)
      · exact .same (by simp [here])
  | @timeout x back e j enabled pending home blocked member =>
      by_cases here : i = j
      · subst here
        have armed := (sound.waits.timeouts e i pending).1
        have free := sound.waits.free sound.graph member
        exact .release member (.timeout pending armed (by simp) (by simp) (by simpa using free)) (by simp) (by simp)
      · exact .same (by simp [here])
  | _ => exact .same (by simp [Machine.preempt, unlinked])

/-- `unblocks` counts the releases. -/
theorem Move.unblocks (move : Move cfg m c m') (e : Fin n) : (m'.ec e).unblocks = (m.ec e).unblocks ∨
    (∃ i, e ∈ (m.sm i).queue) ∧ (m'.ec e).unblocks = (m.ec e).unblocks + 1 ∧ (m.cpu c).pc.rests = false ∧
      m'.self c = m.self c ∧ ∃ g, (m'.ec e).cont = some g ∧ (g = .sysFinish .success true ∨ g = .sysFinish .timeout false) := by
  cases move with
  | @release i back x rest raises queue =>
      by_cases here : e = x
      · subst here
        have member : e ∈ (m.sm i).queue := by
          rw [queue]
          exact List.mem_cons_self
        exact Or.inr ⟨⟨i, member⟩, by simp, raises.acts, by simp, _, by simp, Or.inl rfl⟩
      · exact Or.inl (by simp [here])
  | @timeout y back x i enabled pending home blocked member =>
      by_cases here : e = x
      · subst here
        exact Or.inr ⟨⟨i, member⟩, by simp, acts_of_resume enabled, by simp, _, by simp, Or.inr rfl⟩
      · exact Or.inl (by simp [here])
  | rendezvous pc isLocal home ready =>
      exact Or.inl (by rw [setCpu_ec, field_setEc Ec.unblocks (by rfl), field_setEc Ec.unblocks (by rfl)])
  | donated replies caller callee nonzero =>
      exact Or.inl (by rw [setCpu_ec, unlinked, setCpu_ec, field_setEc Ec.unblocks (by rfl), field_setEc Ec.unblocks (by rfl)])
  | helped replies caller callee zero =>
      exact Or.inl (by rw [goto_ec, unlinked, setCpu_ec, field_setEc Ec.unblocks (by rfl), field_setEc Ec.unblocks (by rfl)])
  | preempt pc => exact Or.inl (by rw [Machine.preempt, goto_ec, field_setEc Ec.unblocks (by rfl)])
  | help pc isLocal home filled alive => exact Or.inl (by rw [goto_ec, field_setEc Ec.unblocks (by rfl)])
  | wait pc blocked => exact Or.inl (by rw [after_ec, putQueue, setSc_ec, field_setEc Ec.unblocks (by rfl)])
  | retire ends caller => exact Or.inl (by rw [retire_ec, field_setEc Ec.unblocks (by rfl)])
  | finish pc token => exact Or.inl (by rw [goto_ec, field_setEc Ec.unblocks (by rfl), setSm_ec])
  | cancel pc => exact Or.inl (by rw [goto_ec, field_setEc Ec.unblocks (by rfl)])
  | wake pc queue => exact Or.inl (by rw [put_ec, takeQueue, setSc_ec, field_setEc Ec.unblocks (by rfl)])
  | take pc positive => exact Or.inl (by rw [goto_ec, field_setEc Ec.unblocks (by rfl), setSm_ec])
  | suspend pc utcb zero => exact Or.inl (by rw [goto_ec, field_setEc Ec.unblocks (by rfl), setSm_ec])
  | @sleep i timed episode pc blocked clear =>
      left
      rw [goto_ec, field_setEc Ec.unblocks (by cases timed <;> rfl), putQueue, setSc_ec, field_setEc Ec.unblocks (by rfl)]
  | stale enabled pending home awake => exact Or.inl (by rw [goto_ec, field_setEc Ec.unblocks (by rfl)])
  | _ => exact Or.inl (by simp)

/-- A token is held until the down finishes. -/
theorem Move.token (move : Move cfg m c m') (sound : Sound cfg count m) {e : Fin n} {i : Nat}
    (held : (m.ec e).token = some i) :
    (m'.ec e).token = some i ∨ m.self c = e ∧ (m.cpu c).pc = .finish .success ∧ (m'.ec e).token = none ∧
      (m'.sm i).finished = (m.sm i).finished + 1 := by
  cases move with
  | @finish j pc token =>
      by_cases here : m.self c = e
      · subst here
        obtain rfl : j = i := Option.some.inj (token.symm.trans held)
        exact Or.inr ⟨rfl, pc, by simp, by simp⟩
      · exact Or.inl (by simp [Ne.symm here, held])
  | @take j zero pc positive =>
      have other : e ≠ m.self c := by
        rintro rfl
        have clean := sound.waits.clean (c := c) (by rw [pc]; rfl)
        exact absurd (clean.2.symm.trans held) nofun
      exact Or.inl (by simp [other, held])
  | @release j back x rest raises queue =>
      have other : e ≠ x := by
        rintro rfl
        have free := sound.waits.free sound.graph (i := j) (e := e) (by rw [queue]; exact List.mem_cons_self)
        exact absurd (free.symm.trans held) nofun
      exact Or.inl (by simp [other, held])
  | rendezvous pc isLocal home ready =>
      exact Or.inl (by rw [setCpu_ec, field_setEc Ec.token (by rfl), field_setEc Ec.token (by rfl), held])
  | donated replies caller callee nonzero =>
      exact Or.inl (by rw [setCpu_ec, unlinked, setCpu_ec, field_setEc Ec.token (by rfl), field_setEc Ec.token (by rfl), held])
  | helped replies caller callee zero =>
      exact Or.inl (by rw [goto_ec, unlinked, setCpu_ec, field_setEc Ec.token (by rfl), field_setEc Ec.token (by rfl), held])
  | preempt pc => exact Or.inl (by rw [Machine.preempt, goto_ec, field_setEc Ec.token (by rfl), held])
  | help pc isLocal home filled alive => exact Or.inl (by rw [goto_ec, field_setEc Ec.token (by rfl), held])
  | wait pc blocked => exact Or.inl (by rw [after_ec, putQueue, setSc_ec, field_setEc Ec.token (by rfl), held])
  | retire ends caller => exact Or.inl (by rw [retire_ec, field_setEc Ec.token (by rfl), held])
  | cancel pc => exact Or.inl (by rw [goto_ec, field_setEc Ec.token (by rfl), held])
  | wake pc queue => exact Or.inl (by rw [put_ec, takeQueue, setSc_ec, field_setEc Ec.token (by rfl), held])
  | suspend pc utcb zero => exact Or.inl (by rw [goto_ec, field_setEc Ec.token (by rfl), setSm_ec, held])
  | @sleep j timed episode pc blocked clear =>
      left
      rw [goto_ec, field_setEc Ec.token (by cases timed <;> rfl), putQueue, setSc_ec, field_setEc Ec.token (by rfl), held]
  | stale enabled pending home awake => exact Or.inl (by rw [goto_ec, field_setEc Ec.token (by rfl), held])
  | timeout enabled pending home blocked member =>
      exact Or.inl (by rw [goto_ec, field_setEc Ec.token (by rfl), setSm_ec, held])
  | _ => exact Or.inl (by simp [held])

/-- An EC that waits on a semaphore does not run. -/
theorem rests_of_blocking (sound : Sound cfg count m) (blocking : (m.ec (m.self c)).cont = some .blocking) :
    (m.cpu c).pc.rests = true := by
  have stands : m.view.Stands cfg c (m.cpu c).pc := sound.graph.pc c
  cases pc : (m.cpu c).pc with
  | run f =>
      rw [pc] at stands
      have same : some f = some Cont.blocking := (show (m.ec (m.self c)).cont = some f from stands.1).symm.trans blocking
      exact absurd (Option.some.inj same) stands.2
  | finish s =>
      rw [pc] at stands
      exact absurd blocking (cont_of_active stands).1
  | schedule b => rfl
  | loop t => rfl
  | activate e a => rfl
  | blockSc e a i => rfl
  | dnBlock i timed episode => rfl
  | _ => exact absurd blocking (sound.waits.not_blocking sound.graph (by rw [pc]; rfl))

/-- A waiter that was released waits to run. -/
theorem pending_of_released (sound : Sound cfg count m) (move : Move cfg m c m') {e : Fin n} {i : Nat} {g : Cont}
    (member : e ∈ (m.sm i).queue) (acts : (m.cpu c).pc.rests = false) (current : m'.self c = m.self c)
    (cont : (m'.ec e).cont = some g) : m'.Pending e g := by
  have blocking : (m.ec e).cont = some .blocking := (sound.graph.waiting e).mpr ⟨i, member⟩
  refine ⟨cont, fun c' here => ?_⟩
  by_cases same : c' = c
  · subst same
    rw [rests_of_blocking sound (by rw [← current, here]; exact blocking)] at acts
    cases acts
  · obtain ⟨q, kept⟩ := move.elsewhere same
    rw [self, kept] at here
    rw [kept]
    exact rests_of_blocking sound (by rw [self, here]; exact blocking)

/-! ## Semaphores -/

/-- Semaphores in a state, and in the states that follow it.  A token goes from the counter, or from an up, to
the down that gets it (`down`, `SmStep`), which keeps it until it finishes with `SUCCESS`. -/
structure Synchronizes (cfg : Config n k) (count : Nat → Nat) (m : Machine n k) : Prop where
  empty : ∀ i, 0 < (m.sm i).counter → (m.sm i).queue = []
  fifo : ∀ i, (m.sm i).queue.Pairwise fun a b => (m.ec a).ticket < (m.ec b).ticket
  waiting : ∀ e, (m.ec e).cont = some .blocking ↔ ∃ i, e ∈ (m.sm i).queue
  once : ∀ e, (m.ec e).blocks = (m.ec e).unblocks + if (m.ec e).cont = some .blocking then 1 else 0
  armed : ∀ e i, (m.ec e).timeout = some i → (m.ec e).armed = (m.ec e).blocks
  steps : ∀ c event m', m.step cfg c event = .ok m' → ∀ i, SmStep m m' c i
  finishes : ∀ c event m' e, m.step cfg c event = .ok m' → (m'.ec e).unblocks ≠ (m.ec e).unblocks →
    (∃ i, e ∈ (m.sm i).queue) ∧ ∃ g, (m'.ec e).cont = some g ∧
      (g = .sysFinish .success true ∨ g = .sysFinish .timeout false) ∧ ∀ later, ∃ m₁, m'.exec cfg later = .ok m₁ ∧
        (m₁.Pending e g ∨ ∃ before after m₂, later = before ++ after ∧ m'.exec cfg before = .ok m₂ ∧ m₂.Resumes e g)
  ledger : ∀ i, count i % 2 ^ 64 + (m.sm i).ups =
    (m.sm i).counter + (m.sm i).finished + (m.sm i).discarded + (m.holders i).card
  down : ∀ c i zero timed, (m.cpu c).pc = .user → cfg.Utcb (m.self c) →
    ∃ m', m.step cfg c (.hypercall (.dn i zero timed)) = .ok m' ∧
      if (m.sm i).counter = 0 then
        (m'.sm i).queue = (m.sm i).queue ++ [m.self c] ∧ (m'.ec (m.self c)).cont = some .blocking ∧
          (m'.cpu c).pc = .dnBlock i timed ((m.ec (m.self c)).blocks + 1)
      else
        (m'.sm i).counter = (if zero then 0 else (m.sm i).counter - 1) ∧ (m'.sm i).queue = (m.sm i).queue ∧
          (m'.ec (m.self c)).token = some i ∧ (m'.cpu c).pc = .finish .success
  holds : ∀ c event m' e i, m.step cfg c event = .ok m' → (m.ec e).token = some i → (m'.ec e).token = some i ∨
    m.self c = e ∧ (m.cpu c).pc = .finish .success ∧ (m'.ec e).token = none ∧ (m'.sm i).finished = (m.sm i).finished + 1
  full : ∀ c i fail back, (m.sm i).queue = [] ∧ (m.sm i).counter = 2 ^ 64 - 1 → m.up c i fail back = m.goto c fail.pc
  room : ∀ c i fail back, ¬ ((m.sm i).queue = [] ∧ (m.sm i).counter = 2 ^ 64 - 1) →
    ((m.up c i fail back).sm i).ups = (m.sm i).ups + 1 ∧
      (((m.up c i fail back).cpu c).pc = back.pc ∨ ∃ e, ((m.up c i fail back).cpu c).pc = .wake e back)

theorem up_room {i : Nat} (fail back : Back n) (room : ¬ ((m.sm i).queue = [] ∧ (m.sm i).counter = 2 ^ 64 - 1)) :
    ((m.up c i fail back).sm i).ups = (m.sm i).ups + 1 ∧
      (((m.up c i fail back).cpu c).pc = back.pc ∨ ∃ e, ((m.up c i fail back).cpu c).pc = .wake e back) := by
  unfold up
  cases queue : (m.sm i).queue with
  | nil =>
      have notFull : (m.sm i).counter ≠ 2 ^ 64 - 1 := fun full => room ⟨queue, full⟩
      dsimp only
      rw [if_neg notFull]
      exact ⟨by simp, Or.inl (by simp)⟩
  | cons e rest => exact ⟨by simp, Or.inr ⟨e, by simp⟩⟩

theorem Sound.down (sound : Sound cfg count m) (pc : (m.cpu c).pc = .user) (utcb : cfg.Utcb (m.self c)) (i : Nat)
    (zero timed : Bool) :
    ∃ m', m.step cfg c (.hypercall (.dn i zero timed)) = .ok m' ∧
      if (m.sm i).counter = 0 then
        (m'.sm i).queue = (m.sm i).queue ++ [m.self c] ∧ (m'.ec (m.self c)).cont = some .blocking ∧
          (m'.cpu c).pc = .dnBlock i timed ((m.ec (m.self c)).blocks + 1)
      else
        (m'.sm i).counter = (if zero then 0 else (m.sm i).counter - 1) ∧ (m'.sm i).queue = (m.sm i).queue ∧
          (m'.ec (m.self c)).token = some i ∧ (m'.cpu c).pc = .finish .success := by
  obtain ⟨m', done, -, -⟩ := step_sound sound c (.hypercall (.dn i zero timed))
  have result : m.dn c i zero timed = .ok m' := by
    rw [← done]
    simp only [step, hypercall, pc, utcb, and_self, if_true]
  refine ⟨m', done, ?_⟩
  unfold dn at result
  dsimp only at result
  by_cases empty : (m.sm i).counter = 0
  · rw [if_neg (not_not.mpr empty)] at result
    rw [if_pos empty]
    split at result
    · cases result
    · obtain rfl := Except.ok.inj result
      exact ⟨by simp, by simp, by simp⟩
  · rw [if_pos empty] at result
    rw [if_neg empty]
    obtain rfl := Except.ok.inj result
    exact ⟨by simp, by simp, by simp, by simp⟩

theorem Sound.synchronizes (sound : Sound cfg count m) : m.Synchronizes cfg count where
  empty := fun i positive => sound.waits.empty i (Nat.ne_of_gt positive)
  fifo := sound.waits.order
  waiting := sound.graph.waiting
  once := sound.waits.episodes
  armed := fun e i pending => (sound.waits.timeouts e i pending).1
  steps := by
    intro c event m' done i
    obtain ⟨m₁, done₁, move, -⟩ := step_sound sound c event
    obtain rfl := Except.ok.inj (done₁.symm.trans done)
    exact move.smStep sound i
  finishes := by
    intro c event m' e done changed
    obtain ⟨m₁, done₁, move, sound₁⟩ := step_sound sound c event
    obtain rfl := Except.ok.inj (done₁.symm.trans done)
    obtain ⟨⟨i, member⟩, -, acts, current, g, cont, kind⟩ := (move.unblocks e).resolve_left changed
    have own : g ≠ .blocking ∧ ∀ r, g ≠ .retUser r := by
      rcases kind with rfl | rfl <;> exact ⟨nofun, nofun⟩
    have pending := pending_of_released sound move member acts current cont
    exact ⟨⟨i, member⟩, g, cont, kind, exec_pending own sound₁ (Or.inl pending)⟩
  ledger := sound.ledger
  down := fun c i zero timed pc utcb => sound.down pc utcb i zero timed
  holds := by
    intro c event m' e i done held
    obtain ⟨m₁, done₁, move, -⟩ := step_sound sound c event
    obtain rfl := Except.ok.inj (done₁.symm.trans done)
    exact move.token sound held
  full := by
    rintro c i fail back ⟨queue, counter⟩
    unfold up
    rw [queue]
    dsimp only
    rw [if_pos counter]
  room := fun c i fail back => up_room fail back

/-- **Semaphores keep their tokens and their waiters**: in every state of every run no EC waits while
there is a token, waiters are released in the order of their arrival and once per down, and every
token is accounted for. -/
theorem exec_synchronizes (cfg : Config n k) (root : Option (Fin n)) (vm : Msg) (count : Nat → Nat)
    (events : List (Fin k × Event n)) :
    ∃ m, (init cfg root vm count).exec cfg events = .ok m ∧ m.Synchronizes cfg count := by
  obtain ⟨m, done, sound⟩ := exec_sound cfg root vm count events
  exact ⟨m, done, sound.synchronizes⟩

local instance sync_cpus : NeZero 1 := ⟨by decide⟩
local instance sync_ecs : NeZero 3 := ⟨by decide⟩

/-- EC 1 gets the only token of semaphore 0 and blocks in its next down. -/
def twoDowns : List (Fin 1 × Event 3) :=
  [.createRoot 1, .go, .go, .go, .go, .go, .go, .hypercall (.dn 0 false false), .go, .go, .hypercall (.dn 0 false false)].map
    ((0, ·))

/-- An interrupt releases it while the idle EC runs. -/
def released : List (Fin 1 × Event 3) :=
  [.go, .go, .go, .go, .go, .irq (.gsi 0) .exception, .go, .go, .go, .go, .go, .go, .go, .go, .go, .go].map ((0, ·))

/-- The downs that finished, the counter, the waiters and the place of CPU 0 at the end of a run -/
def downs (events : List (Fin 1 × Event 3)) : Option (Nat × Nat × List (Fin 3) × Pc 3) :=
  ((init pair (some 1) .vmexitVmx fun _ => 1).exec pair events).toOption.map fun m =>
    ((m.sm 0).finished, (m.sm 0).counter, (m.sm 0).queue, (m.cpu 0).pc)

theorem exec_synchronizes_pair :
    (∃ m, (init pair (some 1) .vmexitVmx fun _ => 1).exec pair twoDowns = .ok m ∧ m.Synchronizes pair (fun _ => 1) ∧
      downs twoDowns = some (1, 0, [1], .dnBlock 0 false 1)) ∧
    ∃ m, (init pair (some 1) .vmexitVmx fun _ => 1).exec pair (twoDowns ++ released) = .ok m ∧
      m.Synchronizes pair (fun _ => 1) ∧ downs (twoDowns ++ released) = some (2, 0, [], .user) := by
  obtain ⟨m, done, synchronizes⟩ := exec_synchronizes pair (some 1) .vmexitVmx (fun _ => 1) twoDowns
  obtain ⟨m', done', synchronizes'⟩ := exec_synchronizes pair (some 1) .vmexitVmx (fun _ => 1) (twoDowns ++ released)
  exact ⟨⟨m, done, synchronizes, by decide +kernel⟩, m', done', synchronizes', by decide +kernel⟩

/-! ## Wake-ups -/

/-- SCs in the queues of ECs.  The episodes of an EC are its calls of `block`; the end of an episode
is the call of `unblock`. -/
structure Awakens (cfg : Config n k) (m : Machine n k) : Prop where
  queued : ∀ e, (m.ec e).queue ≠ [] → (m.ec e).blocked = true ∨ m.Waking e
  blockSc : ∀ c e a episode, (m.cpu c).pc = .blockSc e a episode → ∃ m', m.step cfg c .go = .ok m' ∧
    (m.ec e).blocks = episode ∧ if (m.ec e).cont = none ∨ (m.ec e).unblocks < episode
      then (m'.ec e).queue = (m.ec e).queue ++ [(m.cpu c).sc] ∧ (m'.cpu c).pc = a.pc
      else (m'.ec e).queue = (m.ec e).queue ∧ m'.self c = e ∧ ∃ g, (m'.cpu c).pc = .run g
  dnBlock : ∀ c i timed episode, (m.cpu c).pc = .dnBlock i timed episode → ∃ m', m.step cfg c .go = .ok m' ∧
    (m.ec (m.self c)).blocks = episode ∧ if (m.ec (m.self c)).unblocks < episode
      then (m'.ec (m.self c)).queue = (m.ec (m.self c)).queue ++ [(m.cpu c).sc] ∧ (m'.cpu c).pc = .schedule true
      else (m'.ec (m.self c)).queue = (m.ec (m.self c)).queue ∧ (m'.cpu c).pc = .finish .success
  wake : ∀ c e back, (m.cpu c).pc = .wake e back → ∃ m', m.step cfg c .go = .ok m' ∧
    (∀ x, (m'.ec x).cont = (m.ec x).cont) ∧ (∀ c', m'.self c' = m.self c') ∧
      match (m.ec e).queue with
      | [] => m' = m.goto c back.pc
      | s :: rest => (m'.ec e).queue = rest ∧ (∀ c', (m'.cpu c').pc = (m.cpu c').pc) ∧
          (s ∈ (m'.cpu (cfg.scCpu s)).ready (cfg.prio s) ∨ s ∈ (m'.cpu (cfg.scCpu s)).release)
  runs : ∀ c, (m.cpu c).pc.rests = false → (m.ec (m.self c)).blocked = false

theorem awake_of_acts (sound : Sound cfg count m) (acts : (m.cpu c).pc.rests = false) :
    (m.ec (m.self c)).blocked = false := by
  have awake : ∃ f, (m.ec (m.self c)).cont = some f ∧ f ≠ .blocking := by
    have stands : m.view.Stands cfg c (m.cpu c).pc := sound.graph.pc c
    cases pc : (m.cpu c).pc with
    | run f =>
        rw [pc] at stands
        exact ⟨f, stands⟩
    | finish s =>
        rw [pc] at stands
        obtain ⟨f, cont, notBlocking, -⟩ := stands
        exact ⟨f, cont, notBlocking⟩
    | schedule b => rw [pc] at acts; cases acts
    | loop t => rw [pc] at acts; cases acts
    | activate e a => rw [pc] at acts; cases acts
    | blockSc e a i => rw [pc] at acts; cases acts
    | dnBlock i timed episode => rw [pc] at acts; cases acts
    | _ => exact sound.waits.runs sound.graph (by rw [pc]; rfl)
  obtain ⟨f, cont, notBlocking⟩ := awake
  simp [Ec.blocked, cont, notBlocking]

/-- An EC is blocked if its last episode has not ended. -/
theorem blocked_iff (waits : Waits cfg m) (e : Fin n) :
    (m.ec e).blocked = true ↔ (m.ec e).cont = none ∨ (m.ec e).unblocks < (m.ec e).blocks := by
  have episodes := waits.episodes e
  by_cases blocking : (m.ec e).cont = some .blocking
  · rw [if_pos blocking] at episodes
    simp [Ec.blocked, blocking]
    omega
  · rw [if_neg blocking] at episodes
    simp [Ec.blocked, blocking]
    omega

theorem putQueue_queue (e : Fin n) (s : Nat) : ((m.putQueue e s).ec e).queue = (m.ec e).queue ++ [s] := by
  simp [putQueue]

theorem put_places (s : Nat) : s ∈ ((m.put cfg c s).cpu (cfg.scCpu s)).ready (cfg.prio s) ∨
    s ∈ ((m.put cfg c s).cpu (cfg.scCpu s)).release := by
  unfold put
  split
  · rename_i home
    refine Or.inl ?_
    rw [putReady, setSc_cpu, setCpu_cpu, if_pos home]
    dsimp only
    rw [Function.update_self]
    split <;> simp
  · refine Or.inr ?_
    rw [putRelease, setSc_cpu, setCpu_cpu, if_pos rfl]
    simp

theorem Sound.blockSc (sound : Sound cfg count m) {e : Fin n} {a : After} {episode : Nat}
    (pc : (m.cpu c).pc = .blockSc e a episode) : ∃ m', m.step cfg c .go = .ok m' ∧
      (m.ec e).blocks = episode ∧ if (m.ec e).cont = none ∨ (m.ec e).unblocks < episode
        then (m'.ec e).queue = (m.ec e).queue ++ [(m.cpu c).sc] ∧ (m'.cpu c).pc = a.pc
        else (m'.ec e).queue = (m.ec e).queue ∧ m'.self c = e ∧ ∃ g, (m'.cpu c).pc = .run g := by
  obtain ⟨m', done, move, -⟩ := step_sound sound c .go
  have reaches := sound.wakes.reaches c
  rw [pc] at reaches
  have episode_ : (m.ec e).blocks = episode := reaches.2
  have result : m.blockSc c e a = .ok m' := by
    rw [← done]
    simp only [step, go, pc]
  refine ⟨m', done, episode_, ?_⟩
  rw [← episode_]
  unfold Machine.blockSc at result
  split at result
  · rename_i blocked
    rw [if_pos ((blocked_iff sound.waits e).mp blocked)]
    unfold enqueueSc at result
    split at result
    · cases result
    · obtain rfl := Except.ok.inj result
      exact ⟨by rw [after_ec, putQueue_queue], by rw [after_pc, if_pos rfl]⟩
  · rename_i awake
    rw [if_neg (mt (blocked_iff sound.waits e).mpr awake)]
    unfold makeCurrent at result
    split at result
    · cases result
    · rename_i g cont
      obtain rfl := Except.ok.inj result
      exact ⟨by simp, by simp [self], g, by simp⟩

theorem Sound.dnBlock (sound : Sound cfg count m) {i : Nat} {timed : Bool} {episode : Nat}
    (pc : (m.cpu c).pc = .dnBlock i timed episode) : ∃ m', m.step cfg c .go = .ok m' ∧
      (m.ec (m.self c)).blocks = episode ∧ if (m.ec (m.self c)).unblocks < episode
        then (m'.ec (m.self c)).queue = (m.ec (m.self c)).queue ++ [(m.cpu c).sc] ∧ (m'.cpu c).pc = .schedule true
        else (m'.ec (m.self c)).queue = (m.ec (m.self c)).queue ∧ (m'.cpu c).pc = .finish .success := by
  obtain ⟨m', done, move, -⟩ := step_sound sound c .go
  have episode_ := (sound.waits.dn c i timed episode pc).1
  have stands : m.view.Stands cfg c (m.cpu c).pc := sound.graph.pc c
  rw [pc] at stands
  have filled : (m.ec (m.self c)).cont ≠ none := by
    intro null
    rcases stands with cont | cont
    · rw [show m.view.cont (m.view.current c) = none from null] at cont
      cases cont
    · rw [show m.view.cont (m.view.current c) = none from null] at cont
      cases cont
  have blocked_iff : (m.ec (m.self c)).blocked = true ↔ (m.ec (m.self c)).unblocks < episode := by
    rw [blocked_iff sound.waits, episode_, or_iff_right filled]
  have result : m.dnBlock c i timed = .ok m' := by
    rw [← done]
    simp only [step, go, pc]
  refine ⟨m', done, episode_, ?_⟩
  unfold Machine.dnBlock at result
  dsimp only at result
  split at result
  · rename_i blocked
    rw [if_pos (blocked_iff.mp blocked)]
    unfold enqueueSc at result
    split at result
    · cases result
    · rename_i m₁ queued
      split at queued
      · cases queued
      · obtain rfl := Except.ok.inj queued
        split at result
        · split at result
          · cases result
          · obtain rfl := Except.ok.inj result
            exact ⟨by rw [goto_ec, field_setEc Ec.queue (by rfl), putQueue_queue], by rw [goto_pc, if_pos rfl]⟩
        · obtain rfl := Except.ok.inj result
          exact ⟨by rw [goto_ec, putQueue_queue], by rw [goto_pc, if_pos rfl]⟩
  · rename_i awake
    rw [if_neg (mt blocked_iff.mpr awake)]
    obtain rfl := Except.ok.inj result
    exact ⟨rfl, by rw [goto_pc, if_pos rfl]⟩

theorem Sound.wake (sound : Sound cfg count m) {e : Fin n} {back : Back n} (pc : (m.cpu c).pc = .wake e back) :
    ∃ m', m.step cfg c .go = .ok m' ∧ (∀ x, (m'.ec x).cont = (m.ec x).cont) ∧ (∀ c', m'.self c' = m.self c') ∧
      match (m.ec e).queue with
      | [] => m' = m.goto c back.pc
      | s :: rest => (m'.ec e).queue = rest ∧ (∀ c', (m'.cpu c').pc = (m.cpu c').pc) ∧
          (s ∈ (m'.cpu (cfg.scCpu s)).ready (cfg.prio s) ∨ s ∈ (m'.cpu (cfg.scCpu s)).release) := by
  obtain ⟨m', done, move, -⟩ := step_sound sound c .go
  have result : m.wake cfg c e back = .ok m' := by
    rw [← done]
    simp only [step, go, pc]
  refine ⟨m', done, ?_⟩
  unfold Machine.wake at result
  cases queue : (m.ec e).queue with
  | nil =>
      rw [queue] at result
      obtain rfl := Except.ok.inj result
      exact ⟨fun _ => rfl, fun c' => goto_self .., rfl⟩
  | cons s rest =>
      rw [queue] at result
      obtain rfl := put_of_unblock result
      refine ⟨fun x => ?_, fun c' => put_self .., ?_, fun c' => pc_put .., put_places s⟩
      · rw [put_ec, setSc_ec, field_setEc Ec.cont (by rfl)]
      · rw [put_ec, setSc_ec, setEc_ec, if_pos rfl]

theorem Sound.awakens (sound : Sound cfg count m) : m.Awakens cfg where
  queued := by
    intro e filled
    rcases sound.wakes.queued e filled with blocking | ⟨none, -⟩ | waking
    · exact Or.inl (by simp [Ec.blocked, blocking])
    · exact Or.inl (by simp [Ec.blocked, none])
    · exact Or.inr waking
  blockSc := fun c e a episode pc => sound.blockSc pc
  dnBlock := fun c i timed episode pc => sound.dnBlock pc
  wake := fun c e back pc => sound.wake pc
  runs := fun c acts => awake_of_acts sound acts

/-- **No SC is forgotten in the queue of an EC**: in every state of every run the EC is blocked, or some
CPU is about to empty the queue.  `block_sc` blocks exactly if the episode has not ended, and a late
`unblock_sc` does no more than put SCs into other queues. -/
theorem exec_awakens (cfg : Config n k) (root : Option (Fin n)) (vm : Msg) (count : Nat → Nat)
    (events : List (Fin k × Event n)) :
    ∃ m, (init cfg root vm count).exec cfg events = .ok m ∧ m.Awakens cfg := by
  obtain ⟨m, done, sound⟩ := exec_sound cfg root vm count events
  exact ⟨m, done, sound.awakens⟩

end Machine

end Nova.Kernel.Contexts
