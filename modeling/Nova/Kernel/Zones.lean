/-
# Nova.Kernel.Zones — where an EC can get to

What leads an EC to user mode, and what keeps it from there.  An EC gets to user mode only
through a `ret_user` function or the end of `handle_hazard` (`step_user`).  An EC that is
confined to some places of the kernel code while it runs, and to some continuations while
it does not, stays there if its own steps do not lead out (`zone_move`): nothing that
other ECs do moves it.
-/
import Nova.Kernel.Continuation

namespace Nova.Kernel.Contexts

open Nova.Theory.Chains
open Nova.Theory.Runs

set_option autoImplicit false

variable {n k : Nat}

/-- The interrupt handler returns to `handle_hazard`. -/
def Back.past : Back n → Bool
  | .hazard (.user _) => true
  | _ => false

/-- In `handle_hazard` on the way to user mode, also while an interrupt is handled -/
def Pc.past : Pc n → Bool
  | .hazard (.user _) => true
  | .wake _ back | .requeue _ back => back.past
  | _ => false

/-- Continuations and `ret_user` functions begin with interrupts disabled. -/
def Pc.deaf : Pc n → Bool
  | .run _ | .ret _ => true
  | _ => false

/-- Where an EC leaves its return path: user mode, and `send_msg` -/
def Pc.leaves : Pc n → Bool
  | .user | .ipc _ => true
  | _ => false

namespace Machine

variable {cfg : Config n k} {m m' : Machine n k} {c : Fin k} {count : Nat → Nat}

theorem past_of_back {back : Back n} (past : back.pc.past = true) : ∃ r, back = .hazard (.user r) := by
  cases back with
  | hazard f =>
      cases f with
      | user r => exact ⟨r, rfl⟩
      | idle => cases past
  | _ => cases past

theorem back_ne_user (back : Back n) : back.pc ≠ .user := by
  cases back <;> nofun

theorem past_of_handler {back : Back n} (past : back.past = true) : ∃ r, back = .hazard (.user r) := by
  cases back with
  | hazard f =>
      cases f with
      | user r => exact ⟨r, rfl⟩
      | idle => cases past
  | _ => cases past

theorem past_of_resume {p : Pc n} {x : Msg} {r : Ret} (enabled : p.resume x = some (.hazard (.user r))) :
    p.past = true := by
  cases p with
  | hazard f =>
      cases enabled
      rfl
  | _ => cases enabled

theorem Raises.past {r : Ret} (raises : Raises cfg m c (.hazard (.user r))) : (m.cpu c).pc.past = true := by
  cases raises with
  | gsi enabled => exact past_of_resume enabled

/-! ## The way to user mode -/

theorem Jump.user_from {p : Pc n} (jump : Jump cfg m c p .user) :
    (∃ r, p = .ret r) ∨ ∃ r, p = .hazard (.user r) := by
  generalize goal : (.user : Pc n) = q at jump
  cases jump with
  | user r free => exact Or.inl ⟨r, rfl⟩
  | pass f free =>
      cases f with
      | user r => exact Or.inr ⟨r, rfl⟩
      | idle => cases goal
  | woken e back empty => exact absurd goal.symm (back_ne_user back)
  | requeued t back empty => exact absurd goal.symm (back_ne_user back)
  | resume enabled => exact absurd goal.symm (back_ne_user _)
  | _ => cases goal

theorem Jump.past_from {p q : Pc n} (jump : Jump cfg m c p q) (past : q.past = true) :
    p.past = true ∨ ∃ r, p = .ret r := by
  cases jump with
  | divert r => exact Or.inr ⟨r, rfl⟩
  | woken e back empty =>
      obtain ⟨r, rfl⟩ := past_of_back past
      exact Or.inl rfl
  | requeued t back empty =>
      obtain ⟨r, rfl⟩ := past_of_back past
      exact Or.inl rfl
  | @rrq p x back enabled =>
      obtain ⟨r, rfl⟩ := past_of_handler past
      exact Or.inl (past_of_resume enabled)
  | @resume p x back enabled =>
      obtain ⟨r, rfl⟩ := past_of_back past
      exact Or.inl (past_of_resume enabled)
  | pass f free => cases f <;> cases past
  | _ => cases past

/-- An EC gets to user mode at the end of its return path. -/
theorem Move.user_from (move : Move cfg m c m') (user : (m'.cpu c).pc = .user) :
    m'.self c = m.self c ∧ ((m.cpu c).pc = .user ∨ (∃ r, (m.cpu c).pc = .ret r) ∨ ∃ r, (m.cpu c).pc = .hazard (.user r)) := by
  cases move with
  | stay => exact ⟨rfl, Or.inl user⟩
  | tick d => exact ⟨rfl, Or.inl user⟩
  | jump jump =>
      rw [goto_pc, if_pos rfl] at user
      subst user
      exact ⟨goto_self .., Or.inr jump.user_from⟩
  | @wait e a i pc blocked => cases a <;> simp [after] at user
  | wake pc queue =>
      rw [pc_put, takeQueue_cpu, pc] at user
      cases user
  | requeue pc queue home =>
      rw [pc_putReady, takeRelease_pc, pc] at user
      cases user
  | create creates fresh bound =>
      rw [goto_pc, if_pos rfl] at user
      cases creates <;> cases user
  | count raises empty room =>
      rw [goto_pc, if_pos rfl] at user
      exact absurd user (back_ne_user _)
  | stale enabled pending home awake =>
      rw [goto_pc, if_pos rfl] at user
      exact absurd user (back_ne_user _)
  | @sched x back armed enabled was =>
      rw [setCpu_cpu, if_pos rfl] at user
      exact absurd user (back_ne_user back)
  | _ => simp [Machine.preempt] at user

/-- An EC gets into `handle_hazard` on its return path, and stays there while interrupts are handled. -/
theorem Move.past_from (move : Move cfg m c m') (past : (m'.cpu c).pc.past = true) :
    m'.self c = m.self c ∧ ((m.cpu c).pc.past = true ∨ ∃ r, (m.cpu c).pc = .ret r) := by
  cases move with
  | stay => exact ⟨rfl, Or.inl past⟩
  | tick d => exact ⟨rfl, Or.inl past⟩
  | jump jump =>
      rw [goto_pc, if_pos rfl] at past
      exact ⟨goto_self .., jump.past_from past⟩
  | @wait e a i pc blocked => cases a <;> simp [after, Pc.past] at past
  | wake pc queue =>
      rw [pc_put, takeQueue_cpu] at past
      exact ⟨by simp, Or.inl past⟩
  | requeue pc queue home =>
      rw [pc_putReady, takeRelease_pc] at past
      exact ⟨by simp, Or.inl past⟩
  | create creates fresh bound =>
      rw [goto_pc, if_pos rfl] at past
      cases creates <;> cases past
  | count raises empty room =>
      rw [goto_pc, if_pos rfl] at past
      obtain ⟨r, rfl⟩ := past_of_back past
      exact ⟨by simp, Or.inl raises.past⟩
  | @release i back e rest raises queue =>
      rw [goto_pc, if_pos rfl] at past
      obtain ⟨r, rfl⟩ := past_of_handler past
      exact ⟨by simp, Or.inl raises.past⟩
  | stale enabled pending home awake =>
      rw [goto_pc, if_pos rfl] at past
      obtain ⟨r, rfl⟩ := past_of_back past
      exact ⟨by simp, Or.inl (past_of_resume enabled)⟩
  | @timeout x back e i enabled pending home blocked member =>
      rw [goto_pc, if_pos rfl] at past
      obtain ⟨r, rfl⟩ := past_of_handler past
      exact ⟨by simp, Or.inl (past_of_resume enabled)⟩
  | @sched x back armed enabled was =>
      rw [setCpu_cpu, if_pos rfl] at past
      obtain ⟨r, rfl⟩ := past_of_back past
      exact ⟨by simp [self], Or.inl (past_of_resume enabled)⟩
  | _ => simp [Machine.preempt, Pc.past] at past

/-- The events with which a `ret_user` function goes on -/
def Event.returns : Event n → Bool
  | .go | .divert => true
  | _ => false

/-- The events with which `handle_hazard` goes on, `sleep` apart -/
def Event.handles : Event n → Bool
  | .go | .illegal | .recalled => true
  | _ => false

/-- Nothing but the code itself leads on from these places. -/
theorem step_deaf {event : Event n} (deaf : (m.cpu c).pc.deaf = true) (other : event.returns = false)
    (done : m.step cfg c event = .ok m') : m'.cpu = m.cpu ∧ m'.ec = m.ec := by
  have same : m' = m ∨ ∃ d, m' = { m with now := m.now + d } := by
    generalize pc : (m.cpu c).pc = p at deaf
    cases event with
    | go => cases other
    | divert => cases other
    | tick d =>
        simp only [step] at done
        exact Or.inr ⟨d, (Except.ok.inj done).symm⟩
    | hypercall h =>
        cases p <;> cases deaf
        all_goals
          simp only [step, hypercall, pc] at done
          exact Or.inl (Except.ok.inj done).symm
    | irq i x =>
        cases p <;> cases deaf
        all_goals
          simp only [step, irq, pc, Pc.resume] at done
          exact Or.inl (Except.ok.inj done).symm
    | _ =>
        cases p <;> cases deaf
        all_goals
          simp only [step, pc] at done
          exact Or.inl (Except.ok.inj done).symm
  rcases same with rfl | ⟨d, rfl⟩
  · exact ⟨rfl, rfl⟩
  · exact ⟨rfl, rfl⟩

theorem leaves_back (back : Back n) : back.pc.leaves = false := by
  cases back <;> rfl

theorem leaves_up (i : Nat) (fail back : Back n) : ((m.up c i fail back).cpu c).pc.leaves = false := by
  unfold up
  split
  · split
    · rw [goto_pc, if_pos rfl]
      exact leaves_back fail
    · rw [goto_pc, if_pos rfl]
      exact leaves_back back
  · rw [goto_pc, if_pos rfl]
    rfl

theorem leaves_timeout {e : Fin n} {back : Back n} (kernel : (m.cpu c).pc.leaves = false)
    (done : m.timeout cfg c e back = .ok m') : (m'.cpu c).pc.leaves = false := by
  unfold timeout at done
  split at done
  · cases done
    exact kernel
  · split at done
    · cases done
      exact kernel
    · dsimp only at done
      split at done
      · cases done
        rw [goto_pc, if_pos rfl]
        exact leaves_back back
      · split at done
        · cases done
          rw [goto_pc, if_pos rfl]
          rfl
        · cases done

/-- No interrupt takes an EC off its return path. -/
theorem leaves_irq {i : Irq n} {x : Msg} (kernel : (m.cpu c).pc.leaves = false) (done : m.irq cfg c i x = .ok m') :
    (m'.cpu c).pc.leaves = false := by
  unfold irq at done
  split at done
  · cases done
    exact kernel
  · rename_i back enabled
    cases i with
    | rrq =>
        cases done
        rw [goto_pc, if_pos rfl]
        rfl
    | rke =>
        cases done
        rw [setCpu_cpu, if_pos rfl]
        exact leaves_back back
    | budget =>
        cases done
        split
        · rw [setCpu_cpu, if_pos rfl]
          exact leaves_back back
        · exact kernel
    | timeout e => exact leaves_timeout kernel done
    | gsi j =>
        cases done
        exact leaves_up j back back

theorem step_hazard {r : Ret} {event : Event n} (pc : (m.cpu c).pc = .hazard (.user r)) (other : event.handles = false)
    (done : m.step cfg c event = .ok m') : (m'.cpu c).pc.leaves = false := by
  have kernel : (m.cpu c).pc.leaves = false := by rw [pc]; rfl
  cases event with
  | go => cases other
  | illegal => cases other
  | recalled => cases other
  | tick d =>
      simp only [step] at done
      cases done
      exact kernel
  | hypercall h =>
      simp only [step, hypercall, pc] at done
      cases done
      exact kernel
  | irq i x => exact leaves_irq kernel done
  | sleep =>
      simp only [step, pc] at done
      cases done
      simp [Machine.preempt, Pc.leaves]
  | _ =>
      simp only [step, pc] at done
      cases done
      exact kernel

/-- **The way to user mode** -/
theorem step_user {event : Event n} (graph : Graph cfg m.view) (done : m.step cfg c event = .ok m')
    (user : (m'.cpu c).pc = .user) : m'.self c = m.self c ∧ ((m.cpu c).pc = .user ∨
      (∃ r, (m.cpu c).pc = .ret r) ∧ event.returns = true ∨ (∃ r, (m.cpu c).pc = .hazard (.user r)) ∧ event.handles = true) := by
  have move := step_move (c := c) graph event
  rw [done] at move
  obtain ⟨same, from_⟩ := Move.user_from move user
  refine ⟨same, ?_⟩
  rcases from_ with already | ⟨r, pc⟩ | ⟨r, pc⟩
  · exact Or.inl already
  · cases returns : event.returns with
    | true => exact Or.inr (Or.inl ⟨⟨r, pc⟩, rfl⟩)
    | false =>
        rw [(step_deaf (by rw [pc]; rfl) returns done).1, pc] at user
        cases user
  · cases handles : event.handles with
    | true => exact Or.inr (Or.inr ⟨⟨r, pc⟩, rfl⟩)
    | false =>
        have stays := step_hazard pc handles done
        rw [user] at stays
        cases stays

/-- An EC whose hazards are seen does not get to user mode. -/
theorem step_barred {event : Event n} (graph : Graph cfg m.view) (done : m.step cfg c event = .ok m')
    (user : (m'.cpu c).pc = .user) (diverts : ∀ r, (m.cpu c).pc = .ret r → event.returns = true → event = .divert)
    (takes : ∀ r, (m.cpu c).pc = .hazard (.user r) → event.handles = true → event = .go → (m.cpu c).sched = true) :
    (m.cpu c).pc = .user := by
  obtain ⟨-, from_⟩ := step_user graph done user
  rcases from_ with already | ⟨⟨r, pc⟩, returns⟩ | ⟨⟨r, pc⟩, handles⟩
  · exact already
  · obtain rfl := diverts r pc returns
    simp only [step, pc] at done
    cases done
    simp at user
  · cases event with
    | go =>
        simp only [step, go, pc, takes r pc handles rfl] at done
        cases done
        simp [Machine.preempt] at user
    | illegal =>
        simp only [step, pc] at done
        cases done
        split at user
        · rw [pc] at user
          cases user
        · simp at user
    | recalled =>
        simp only [step, pc] at done
        cases done
        split at user
        · rw [pc] at user
          cases user
        · simp at user
    | _ => cases handles

/-- The way into `handle_hazard` -/
theorem step_past {event : Event n} (graph : Graph cfg m.view) (done : m.step cfg c event = .ok m')
    (past : (m'.cpu c).pc.past = true) : m'.self c = m.self c ∧
      ((m.cpu c).pc.past = true ∨ (∃ r, (m.cpu c).pc = .ret r) ∧ event.returns = true) := by
  have move := step_move (c := c) graph event
  rw [done] at move
  obtain ⟨same, from_⟩ := Move.past_from move past
  refine ⟨same, ?_⟩
  rcases from_ with already | ⟨r, pc⟩
  · exact Or.inl already
  · cases returns : event.returns with
    | true => exact Or.inr ⟨⟨r, pc⟩, rfl⟩
    | false =>
        rw [(step_deaf (by rw [pc]; rfl) returns done).1, pc] at past
        cases past

/-! ## Zones -/

theorem unlinked_callee (a e : Fin n) (f h : Option Cont) (none_ : (m.ec e).callee = none) :
    ((m.unlinked c a f h).ec e).callee = none := by
  rw [unlinked, setCpu_ec, setEc_ec]
  split
  · rfl
  · rw [field_setEc Ec.callee (by rfl)]
    exact none_

/-- Only an EC that sends a message gets a callee. -/
theorem Move.callee (move : Move cfg m c m') {e : Fin n} (alone : (m.ec e).callee = none)
    (silent : m.self c = e → ∀ i, (m.cpu c).pc ≠ .ipc i) : (m'.ec e).callee = none := by
  cases move with
  | @rendezvous i t pc isLocal home ready =>
      have other : e ≠ m.self c := fun is => silent is.symm i pc
      rw [setCpu_ec, field_setEc Ec.callee (by rfl), setEc_ec, if_neg other]
      exact alone
  | donated replies caller callee nonzero => exact unlinked_callee _ _ _ _ alone
  | helped replies caller callee zero => exact unlinked_callee _ _ _ _ alone
  | preempt pc => rw [Machine.preempt, goto_ec, field_setEc Ec.callee (by rfl), alone]
  | help pc isLocal home filled alive => rw [goto_ec, field_setEc Ec.callee (by rfl), alone]
  | wait pc blocked => rw [after_ec, putQueue, setSc_ec, field_setEc Ec.callee (by rfl), alone]
  | retire ends caller => rw [retire_ec, field_setEc Ec.callee (by rfl), alone]
  | finish pc token => rw [goto_ec, field_setEc Ec.callee (by rfl), setSm_ec, alone]
  | cancel pc => rw [goto_ec, field_setEc Ec.callee (by rfl), alone]
  | wake pc queue => rw [put_ec, takeQueue, setSc_ec, field_setEc Ec.callee (by rfl), alone]
  | take pc positive => rw [goto_ec, field_setEc Ec.callee (by rfl), setSm_ec, alone]
  | suspend pc utcb zero => rw [goto_ec, field_setEc Ec.callee (by rfl), setSm_ec, alone]
  | @sleep i timed episode pc blocked clear =>
      rw [goto_ec, field_setEc Ec.callee (by cases timed <;> rfl), putQueue, setSc_ec, field_setEc Ec.callee (by rfl), alone]
  | release raises queue => rw [goto_ec, field_setEc Ec.callee (by rfl), setSm_ec, alone]
  | stale enabled pending home awake => rw [goto_ec, field_setEc Ec.callee (by rfl), alone]
  | timeout enabled pending home blocked member => rw [goto_ec, field_setEc Ec.callee (by rfl), setSm_ec, alone]
  | _ => simpa using alone

/-- The EC waits for nobody.  It runs at a place and with a continuation of which `P` holds, or it does
not run and will run at a continuation of which `K` holds. -/
structure Zone (P : Pc n → Cont → Prop) (K : Cont → Prop) (m : Machine n k) (a : Fin n) : Prop where
  callee : (m.ec a).callee = none
  lies : ∃ g, (m.ec a).cont = some g ∧ ((∃ c, m.self c = a ∧ (m.cpu c).pc.rests = false ∧ P (m.cpu c).pc g) ∨
    (∀ c, m.self c = a → (m.cpu c).pc.rests = true) ∧ K g)

/-- What `zone_move` asks of the places and continuations -/
structure Closed (P : Pc n → Cont → Prop) (K : Cont → Prop) : Prop where
  runs : ∀ g, K g → P (.run g) g
  calm : ∀ g, K g → g ≠ .blocking ∧ g ≠ .sysFinish .success true
  wakes : ∀ p g, P p g → g ≠ .blocking

/-- **An EC leaves a zone only by a step of its own.** -/
theorem zone_move {P : Pc n → Cont → Prop} {K : Cont → Prop} {a : Fin n} (closed : Closed P K) (graph : Graph cfg m.view)
    (zone : m.Zone P K a) (move : Move cfg m c m')
    (own : ∀ g, m.self c = a → (m.cpu c).pc.rests = false → P (m.cpu c).pc g → (m.ec a).cont = some g → m'.Zone P K a) :
    m'.Zone P K a := by
  obtain ⟨callee, g, cont, lies⟩ := zone
  have home : ∀ {c₁ c₂ : Fin k}, m.self c₁ = a → m.self c₂ = a → c₁ = c₂ := fun here there =>
    (graph.home _).symm.trans ((congrArg cfg.cpu (here.trans there.symm)).trans (graph.home _))
  -- nobody but the EC itself changes its continuation
  have keeps : (m.self c = a → (m.cpu c).pc.rests = true) → g ≠ .blocking → (m'.ec a).cont = some g := by
    intro still awake
    rcases move.cont graph a with same | rewrites
    · exact same.trans cont
    · cases rewrites with
      | own here active acts => exact absurd (still here) (by rw [acts]; decide)
      | killed here pc dead => exact absurd (still here) (by rw [pc]; exact Bool.false_ne_true)
      | called none =>
          rw [cont] at none
          cases none
      | released blocking =>
          rw [cont] at blocking
          exact absurd (Option.some.inj blocking) awake
      | aborts pc caller changed =>
          have partner := (partners graph caller).1
          rw [callee] at partner
          cases partner
  rcases lies with ⟨c₀, here, acts, place⟩ | ⟨still, waits⟩
  · by_cases same : c₀ = c
    · subst same
      exact own g here acts place cont
    · have away : m.self c ≠ a := fun is => same (home here is)
      obtain ⟨q, kept⟩ := move.elsewhere same
      refine ⟨move.callee callee fun is => absurd is away, g,
        keeps (fun is => absurd is away) (closed.wakes _ g place), Or.inl ⟨c₀, ?_, ?_, ?_⟩⟩
      · rw [self, kept]
        exact here
      · rw [kept]
        exact acts
      · rw [kept]
        exact place
  · have cont' := keeps (still c) (closed.calm g waits).1
    refine ⟨move.callee callee fun is i pc => ?_, g, cont', ?_⟩
    · exact absurd (still c is) (by rw [pc]; exact Bool.false_ne_true)
    by_cases runs : ∃ c', m'.self c' = a ∧ (m'.cpu c').pc.rests = false
    · obtain ⟨c', here, acts⟩ := runs
      refine Or.inl ⟨c', here, acts, ?_⟩
      by_cases same : c' = c
      · subst same
        rcases move.runs here acts with ⟨was, before⟩ | ⟨g', pc, found⟩ | ⟨⟨i, timed, episode, place⟩, was, awake, pc⟩
        · exact absurd (still c' was) (by rw [before]; decide)
        · rw [cont'] at found
          obtain rfl := Option.some.inj found
          rw [pc]
          exact closed.runs g waits
        · have stands : m.view.Stands cfg c' (m.cpu c').pc := graph.pc c'
          rw [place] at stands
          have either : (m.ec a).cont = some .blocking ∨ (m.ec a).cont = some (.sysFinish .success true) := was ▸ stands
          rw [cont] at either
          rcases either with is | is
          · exact absurd (Option.some.inj is) (closed.calm g waits).1
          · exact absurd (Option.some.inj is) (closed.calm g waits).2
      · obtain ⟨q, kept⟩ := move.elsewhere same
        rw [self, kept] at here
        rw [kept] at acts
        exact absurd (still c' here) (by rw [acts]; decide)
    · refine Or.inr ⟨fun c' here => ?_, waits⟩
      rw [← Bool.not_eq_false]
      exact fun acts => runs ⟨c', here, acts⟩

/-! ## The steps of an EC -/

section Own

variable (cfg : Config n k) (m : Machine n k) (c : Fin k)

/-- Where the current EC goes on -/
inductive Goes : Pc n → Pc n → Prop
  | stay (p : Pc n) : Goes p p
  | jump {p q : Pc n} : Jump cfg m c p q → Goes p q
  | back {p : Pc n} {x : Msg} {back : Back n} : p.resume x = some back → Goes p back.pc
  | handler {p : Pc n} {x : Msg} {back : Back n} (e : Fin n) : p.resume x = some back → Goes p (.wake e back)
  | finish : Goes (.finish .success) (.ret .hypercall)
  | cancel (s : Status) : Goes (.run (.sysFinish s true)) (.finish s)

variable {cfg m c}

/-- An EC with this continuation is in no queue of a semaphore. -/
theorem other_of_queue (graph : Graph cfg m.view) {a e : Fin n} {g : Cont} {i : Nat} (cont : (m.ec a).cont = some g)
    (awake : g ≠ .blocking) (member : e ∈ (m.sm i).queue) : a ≠ e := by
  rintro rfl
  have blocking : (m.ec a).cont = some .blocking := (graph.waiting a).mpr ⟨i, member⟩
  rw [cont] at blocking
  exact awake (Option.some.inj blocking)

theorem Raises.goes {back : Back n} (raises : Raises cfg m c back) (kernel : (m.cpu c).pc ≠ .user) :
    ∃ x, (m.cpu c).pc.resume x = some back := by
  cases raises with
  | hypercall pc utcb => exact absurd pc kernel
  | @gsi x back enabled => exact ⟨x, enabled⟩

/-- In the kernel an EC replies only when it dies. -/
theorem Replies.dies {a : Fin n} {f h : Option Cont} (replies : Replies cfg m c a f h) (kernel : (m.cpu c).pc ≠ .user) :
    (m.cpu c).pc = .kill ∧ f = some .dead := by
  cases replies with
  | reply user utcb => exact absurd user kernel
  | kill pc => exact ⟨pc, rfl⟩

/-- **What an EC does** in the kernel until it sends a message: it goes on with the same continuation, it is
preempted, or it kills itself. -/
theorem Move.own_step {g : Cont} (move : Move cfg m c m') (graph : Graph cfg m.view) (acts : (m.cpu c).pc.rests = false)
    (kernel : (m.cpu c).pc ≠ .user) (silent : ∀ i, (m.cpu c).pc ≠ .ipc i) (cont : (m.ec (m.self c)).cont = some g)
    (awake : g ≠ .blocking) :
    (m'.self c = m.self c ∧ (m'.ec (m.self c)).cont = some g ∧ Goes cfg m c (m.cpu c).pc (m'.cpu c).pc) ∨
    (∃ f, (m.cpu c).pc = .hazard f ∧ m'.self c = m.self c ∧ (m'.cpu c).pc = .schedule false ∧
      (m'.ec (m.self c)).cont = some f.cont) ∨
    ((m.cpu c).pc = .kill ∧ (m'.ec (m.self c)).cont = some .dead ∧ (m'.self c = m.self c → (m'.cpu c).pc.rests = true)) := by
  cases move with
  | stay => exact Or.inl ⟨rfl, cont, .stay _⟩
  | tick d => exact Or.inl ⟨rfl, cont, .stay _⟩
  | jump jump =>
      refine Or.inl ⟨goto_self .., cont, ?_⟩
      rw [goto_pc, if_pos rfl]
      exact .jump jump
  | @preempt f pc => exact Or.inr (Or.inl ⟨f, pc, by simp [Machine.preempt], by simp [Machine.preempt], by simp [Machine.preempt]⟩)
  | help pc isLocal home busy alive => exact absurd pc (silent _)
  | rendezvous pc isLocal home ready => exact absurd pc (silent _)
  | retire ends caller =>
      rcases ends with ⟨pc, rfl⟩ | ⟨pc, rfl⟩
      · exact absurd pc kernel
      · exact Or.inr (Or.inr ⟨pc, by simp, fun _ => by simp [Pc.rests, Pc.executes]⟩)
  | @donated a f g' replies caller callee nonzero =>
      obtain ⟨-, ne⟩ := partners graph caller
      obtain ⟨pc, rfl⟩ := replies.dies kernel
      refine Or.inr (Or.inr ⟨pc, ?_, fun same => ?_⟩)
      · rw [setCpu_ec, unlinked_cont, if_neg ne, if_pos rfl]
      · simp [self] at same
        exact absurd same.symm ne
  | @helped a f h replies caller callee zero =>
      obtain ⟨-, ne⟩ := partners graph caller
      obtain ⟨pc, rfl⟩ := replies.dies kernel
      refine Or.inr (Or.inr ⟨pc, ?_, fun _ => ?_⟩)
      · rw [goto_ec, unlinked_cont, if_neg ne, if_pos rfl]
      · rw [goto_pc, if_pos rfl]
        rfl
  | finish pc token =>
      refine Or.inl ⟨by simp, ?_, ?_⟩
      · rw [goto_ec, field_setEc Ec.cont (by rfl), setSm_ec]
        exact cont
      · rw [goto_pc, if_pos rfl, pc]
        exact .finish
  | @cancel s pc =>
      refine Or.inl ⟨by simp, ?_, ?_⟩
      · rw [goto_ec, field_setEc Ec.cont (by rfl)]
        exact cont
      · rw [goto_pc, if_pos rfl, pc]
        exact .cancel s
  | wake pc queue =>
      refine Or.inl ⟨by simp, ?_, ?_⟩
      · rw [put_ec, takeQueue, setSc_ec, field_setEc Ec.cont (by rfl)]
        exact cont
      · rw [pc_put, takeQueue_cpu]
        exact .stay _
  | requeue pc queue home =>
      refine Or.inl ⟨by simp, by simpa using cont, ?_⟩
      rw [pc_putReady, takeRelease_pc]
      exact .stay _
  | @create s p creates fresh bound =>
      cases creates with
      | hypercall pc => exact absurd pc kernel
      | root pc =>
          refine Or.inl ⟨by rw [goto_self, put_self]; rfl, by simpa using cont, ?_⟩
          rw [goto_pc, if_pos rfl, pc]
          exact .stay _
  | take pc positive => exact absurd pc kernel
  | suspend pc utcb zero => exact absurd pc kernel
  | count raises empty room =>
      obtain ⟨x, enabled⟩ := raises.goes kernel
      refine Or.inl ⟨by simp, by simpa using cont, ?_⟩
      rw [goto_pc, if_pos rfl]
      exact .back enabled
  | @release i back e rest raises queue =>
      obtain ⟨x, enabled⟩ := raises.goes kernel
      have member : e ∈ (m.sm i).queue := by rw [queue]; exact List.mem_cons_self
      have other := other_of_queue graph cont awake member
      refine Or.inl ⟨by simp, by simpa [other] using cont, ?_⟩
      rw [goto_pc, if_pos rfl]
      exact .handler e enabled
  | stale enabled pending home running =>
      refine Or.inl ⟨by simp, ?_, ?_⟩
      · rw [goto_ec, field_setEc Ec.cont (by rfl)]
        exact cont
      · rw [goto_pc, if_pos rfl]
        exact .back enabled
  | @timeout x back e i enabled pending home blocked member =>
      have other := other_of_queue graph cont awake member
      refine Or.inl ⟨by simp, by simpa [other] using cont, ?_⟩
      rw [goto_pc, if_pos rfl]
      exact .handler e enabled
  | sched enabled armed =>
      refine Or.inl ⟨by simp [self], by simpa using cont, ?_⟩
      rw [setCpu_cpu, if_pos rfl]
      exact .back enabled
  | enter pc reached found runs =>
      rw [pc] at acts
      cases acts
  | look pc reached blocked =>
      rw [pc] at acts
      cases acts
  | unblocked pc found runs =>
      rw [pc] at acts
      cases acts
  | wait pc blocked =>
      rw [pc] at acts
      cases acts
  | block pc =>
      rw [pc] at acts
      cases acts
  | yield_ pc free home =>
      rw [pc] at acts
      cases acts
  | dispatch pc queue armed home =>
      rw [pc] at acts
      cases acts
  | sleep pc blocked clear =>
      rw [pc] at acts
      cases acts

end Own

end Machine

end Nova.Kernel.Contexts
