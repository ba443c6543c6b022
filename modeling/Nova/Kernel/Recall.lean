/-
# Nova.Kernel.Recall — strong recalls

`sys_ctrl_ec` with the strong flag sets `RECALL` of an EC.  If that EC is current on another
CPU, it reads how many `RKE` interrupts that CPU has taken, sends one more and waits until the
number changes (`src/syscall.cpp`); nothing else synchronises it with the other CPU, which may
be anywhere in its kernel code, or in user or guest mode, at each of these steps.  Memory is assumed to be
sequentially consistent: the steps of the CPUs are interleaved, and each sees what the others have written.
The bits of the hazard are set and cleared so, but the current EC and the counter are accessed with relaxed
loads and stores (`inc/atomic.hpp`).

A step of `Recalls` is a step of the system of Nova.Kernel.Entry, an `RKE` interrupt, or a step of
the strong part of `sys_ctrl_ec`.  An `RKE` interrupt may come whenever interrupts are enabled:
also without a request, as other parts of the kernel send it, too.

* `Calls`: the hypercall sets the bit, and its CPU stays in the wait loop, whatever happens there and
  elsewhere, until the hypercall is past the loop;
* `passed_delivered`: from then on the EC executes nothing in user or guest mode before a `RECALL` has been
  delivered that was taken after the hypercall set its bit;
* no recall is lost, also if the bit was already set.
-/
import Nova.Kernel.Entry

namespace Nova.Kernel.Contexts

open Nova.Theory.Runs

set_option autoImplicit false

variable {n k : Nat}

/-- How far the strong part of `sys_ctrl_ec` is: it has set `RECALL` of the EC `e`, it has seen that `e`
is current on another CPU, or it waits for the counter to change.  `d` is bookkeeping: how many recalls
`e` had taken when the bit was set. -/
inductive Phase (n : Nat)
  | sample (e : Fin n) (d : Nat)
  | count (e : Fin n) (d : Nat)
  | wait (e : Fin n) (cnt : BitVec 32) (d : Nat)

/-- The recall that `sys_ctrl_ec` asked for -/
def Phase.call : Phase n → Fin n × Nat
  | .sample e d | .count e d | .wait e _ d => (e, d)

/-- `rke` is `Counter::req[RKE]`.  `ep` says that the message that the EC is about to send is a `RECALL`.
Bookkeeping: how many recalls `handle_hazard` has taken from its bit and `send_msg` has delivered, the
recalls that were asked for, and those of them whose hypercall is past its wait loop. -/
structure Recalls (n k : Nat) (Regs Reply : Type) where
  system : System n k Regs Reply
  ctrl : Fin k → Option (Phase n)
  rke : Fin k → BitVec 32
  ep : Fin n → Bool
  taken : Fin n → Nat
  delivered : Fin n → Nat
  asked : List (Fin n × Nat)
  passed : List (Fin n × Nat)

inductive Act (n : Nat) (Reply Drift : Type)
  | input (i : Input n Reply Drift)
  /-- an `RKE` interrupt; its handler may set `SCHED`. -/
  | rke (resched : Bool)
  /-- `sys_ctrl_ec`, up to the point where it has set the bit -/
  | ctrlEc (e : Fin n) (strong : Bool)
  /-- the next step of `sys_ctrl_ec` -/
  | ctrl

namespace Recalls

variable {Regs Reply Drift : Type} (cfg : Config n k) (vm : Msg) (arch : Arch Regs Reply Drift) (c : Fin k)

/-- The system makes a step. -/
def note (t : System n k Regs Reply) (s : Recalls n k Regs Reply) : Recalls n k Regs Reply :=
  let e := s.system.machine.self c
  match (s.system.machine.cpu c).pc, (t.machine.cpu c).pc with
  | .hazard (.user _), .ipc (.msg _) =>
      { s with
        system := t
        ep := Function.update s.ep e true
        taken := Function.update s.taken e (s.taken e + 1) }
  | .user, .ipc (.msg _) => { s with system := t, ep := Function.update s.ep e false }
  | .ipc (.msg _), _ =>
      if s.ep e ∧ (t.machine.ec e).callee ≠ none then
        { s with
          system := t
          ep := Function.update s.ep e false
          delivered := Function.update s.delivered e (s.delivered e + 1) }
      else { s with system := t }
  | _, _ => { s with system := t }

def input (i : Input n Reply Drift) (s : Recalls n k Regs Reply) : Option (Recalls n k Regs Reply) :=
  (s.system.step cfg vm arch c i).map (s.note c)

/-- `sys_ctrl_ec` has not yet enabled interrupts. -/
def masked (s : Recalls n k Regs Reply) : Bool :=
  match s.ctrl c with
  | some (.sample _ _) => true
  | _ => false

/-- `Interrupt::handle_ipi` -/
def handleIpi (resched : Bool) (s : Recalls n k Regs Reply) : Option (Recalls n k Regs Reply) :=
  let pc := (s.system.machine.cpu c).pc
  if s.masked c ∨ pc.resume vm = none then some s
  else
    let s := { s with rke := Function.update s.rke c (s.rke c + 1) }
    if resched then s.input cfg vm arch c (.event (.irq .rke vm))
    else if pc = .user then s.input cfg vm arch c (.event (.resolve vm))
    else some s

/-- `sys_ctrl_ec` sets `RECALL`, also if it is set already. -/
def sysCtrlEc (e : Fin n) (strong : Bool) (s : Recalls n k Regs Reply) : Option (Recalls n k Regs Reply) :=
  if (s.system.machine.cpu c).pc = .user ∧ cfg.Utcb (s.system.machine.self c) then
    let s := { s with asked := (e, s.taken e) :: s.asked }
    if strong then
      ((s.system.setRegs e arch.setRecall).run cfg c (.hypercall .ctrlEc)).map fun t =>
        { s.note c t with ctrl := Function.update s.ctrl c (some (.sample e (s.taken e))) }
    else s.input cfg vm arch c (.ctrlEc e)
  else some s

/-- `sys_ctrl_ec` is past its wait loop. -/
def pass (e : Fin n) (d : Nat) (s : Recalls n k Regs Reply) : Option (Recalls n k Regs Reply) :=
  { s with ctrl := Function.update s.ctrl c none, passed := (e, d) :: s.passed }.input cfg vm arch c (.event .go)

/-- The strong part of `sys_ctrl_ec` -/
def sysCtrlStrong (s : Recalls n k Regs Reply) : Option (Recalls n k Regs Reply) :=
  if (s.system.machine.cpu c).pc = .pause then
    match s.ctrl c with
    | none => some s
    | some (.sample e d) =>
        if c ≠ cfg.cpu e ∧ s.system.machine.self (cfg.cpu e) = e then
          some { s with ctrl := Function.update s.ctrl c (some (.count e d)) }
        else s.pass cfg vm arch c e d
    | some (.count e d) => some { s with ctrl := Function.update s.ctrl c (some (.wait e (s.rke (cfg.cpu e)) d)) }
    | some (.wait e cnt d) => if s.rke (cfg.cpu e) = cnt then some s else s.pass cfg vm arch c e d
  else some s

/-- The steps of the system that `Recalls` makes itself: `RKE` interrupts, `sys_ctrl_ec`, and the end of its
wait loop.  No interrupt comes while they are disabled. -/
def reserved (i : Input n Reply Drift) (s : Recalls n k Regs Reply) : Bool :=
  match i with
  | .event (.irq .rke _) | .event (.hypercall .ctrlEc) | .ctrlEc _ => true
  | .event (.irq _ _) => s.masked c
  | .event .go => (s.system.machine.cpu c).pc = .pause
  | _ => false

def step : Act n Reply Drift → Recalls n k Regs Reply → Option (Recalls n k Regs Reply)
  | .input i, s => if s.reserved c i then some s else s.input cfg vm arch c i
  | .rke resched, s => s.handleIpi cfg vm arch c resched
  | .ctrlEc e strong, s => s.sysCtrlEc cfg vm arch c e strong
  | .ctrl, s => s.sysCtrlStrong cfg vm arch c

def start (root : Option (Fin n)) (count : Nat → Nat) (regs : Fin n → Regs) : Recalls n k Regs Reply where
  system := .start cfg vm root count regs
  ctrl := fun _ => none
  rke := fun _ => 0
  ep := fun _ => false
  taken := fun _ => 0
  delivered := fun _ => 0
  asked := []
  passed := []

end Recalls

/-! ## Sending a message -/

/-- On the way to `send_msg`, or to `kill` -/
def Pc.sends : Pc n → Bool
  | .run (.sendMsg _) | .run .dead | .ipc (.msg _) | .kill => true
  | _ => false

/-- The same while the EC helps its partner -/
def Pc.Sends (p : Pc n) (g : Cont) : Prop := g ≠ .blocking ∧ (p.sends = true ∨ p.helps ≠ none ∧ ∃ x, g = .sendMsg x)

namespace Machine

variable {cfg : Config n k} {m m' : Machine n k} {c : Fin k}

/-- An EC that sends a message, which is not delivered yet, or that is killed -/
def Sending (m : Machine n k) (a : Fin n) : Prop := m.Zone Pc.Sends (fun g => g = .dead ∨ ∃ x, g = .sendMsg x) a

theorem sending_closed : Closed (n := n) Pc.Sends (fun g => g = .dead ∨ ∃ x, g = .sendMsg x) where
  runs := by
    rintro g (rfl | ⟨x, rfl⟩)
    · exact ⟨nofun, Or.inl rfl⟩
    · exact ⟨nofun, Or.inl rfl⟩
  calm := by
    rintro g (rfl | ⟨x, rfl⟩)
    · exact ⟨nofun, nofun⟩
    · exact ⟨nofun, nofun⟩
  wakes := fun _ _ is => is.1

theorem acts_of_sends {p : Pc n} {g : Cont} (sends : p.Sends g) : p.rests = false := by
  rcases sends.2 with direct | ⟨helps, -⟩
  · cases p <;> first | rfl | cases direct
  · cases p <;> first | rfl | exact absurd rfl helps

theorem helps_resumed {p : Pc n} {x : Msg} {back : Back n} {t : Fin n} (helps : p.helps = some t)
    (enabled : p.resume x = some back) : back = .help t := by
  cases p with
  | help t' =>
      cases enabled
      cases helps
      rfl
  | wake e b => cases enabled
  | requeue s b => cases enabled
  | _ => cases helps

theorem helps_handled {back : Back n} {t : Fin n} (e : Fin n) (helps : (Pc.wake e back).helps = some t) : back = .help t := by
  cases back with
  | help t' =>
      cases helps
      rfl
  | _ => cases helps

theorem deaf_of_sends {p : Pc n} (direct : p.sends = true) (x : Msg) : p.resume x = none := by
  cases p <;> first | rfl | cases direct

theorem Goes.direct {p q : Pc n} (goes : Goes cfg m c p q) (direct : p.sends = true) (silent : ∀ i, p ≠ .ipc i) :
    q.sends = true := by
  cases goes with
  | stay => exact direct
  | back enabled =>
      rw [deaf_of_sends direct] at enabled
      cases enabled
  | handler e enabled =>
      rw [deaf_of_sends direct] at enabled
      cases enabled
  | finish => cases direct
  | cancel s => cases direct
  | jump jump =>
      cases jump with
      | sendMsg x => rfl
      | dead => rfl
      | undeliverable x => exact absurd rfl (silent _)
      | rrq enabled =>
          rw [deaf_of_sends direct] at enabled
          cases enabled
      | resume enabled =>
          rw [deaf_of_sends direct] at enabled
          cases enabled
      | _ => cases direct

theorem Goes.helping {p q : Pc n} {t : Fin n} (goes : Goes cfg m c p q) (helps : p.helps = some t) :
    q.helps = some t ∨ q.rests = true := by
  cases goes with
  | stay => exact Or.inl helps
  | back enabled =>
      obtain rfl := helps_resumed helps enabled
      exact Or.inl rfl
  | handler e enabled =>
      obtain rfl := helps_resumed helps enabled
      exact Or.inl rfl
  | finish => cases helps
  | cancel s => cases helps
  | jump jump =>
      cases jump with
      | yield_ t' => exact Or.inr rfl
      | help t' => exact Or.inr rfl
      | woken e back empty =>
          obtain rfl := helps_handled e helps
          exact Or.inl rfl
      | requeued s back empty =>
          obtain rfl : back = .help t := by
            cases back with
            | help t' =>
                cases helps
                rfl
            | _ => cases helps
          exact Or.inl rfl
      | rrq enabled =>
          obtain rfl := helps_resumed helps enabled
          exact Or.inl rfl
      | resume enabled =>
          obtain rfl := helps_resumed helps enabled
          exact Or.inl rfl
      | _ => cases helps

/-- What `send_msg` does: its message is delivered, it helps the partner, or the EC is killed. -/
theorem step_ipc {x : Msg} {event : Event n} (graph : Graph cfg m.view) (pc : (m.cpu c).pc = .ipc (.msg x))
    (done : m.step cfg c event = .ok m') : (m'.ec (m.self c)).callee ≠ none ∨
      m'.self c = m.self c ∧ ∃ g, (m'.ec (m.self c)).cont = some g ∧ (m'.cpu c).pc.Sends g := by
  have stands : m.view.Stands cfg c (m.cpu c).pc := graph.pc c
  rw [pc] at stands
  obtain ⟨⟨g, cont, awake, -⟩, -⟩ := stands
  have stays : m'.cpu = m.cpu → m'.ec = m.ec → m'.self c = m.self c ∧
      ∃ g, (m'.ec (m.self c)).cont = some g ∧ (m'.cpu c).pc.Sends g := by
    intro cpu ec
    refine ⟨by rw [self, cpu]; rfl, g, by rw [ec]; exact cont, ?_⟩
    rw [cpu, pc]
    exact ⟨awake, Or.inl rfl⟩
  have killed : m' = m.goto c .kill → m'.self c = m.self c ∧
      ∃ g, (m'.ec (m.self c)).cont = some g ∧ (m'.cpu c).pc.Sends g := by
    rintro rfl
    refine ⟨goto_self .., g, cont, ?_⟩
    rw [goto_pc, if_pos rfl]
    exact ⟨awake, Or.inl rfl⟩
  cases event with
  | lookup pt noWait =>
      simp only [step, pc, ipc] at done
      cases pt with
      | none => exact Or.inr (killed (Except.ok.inj done).symm)
      | some t =>
          dsimp only at done
          split at done
          · exact Or.inr (killed (Except.ok.inj done).symm)
          split at done
          · exact Or.inr (killed (Except.ok.inj done).symm)
          split at done
          · refine Or.inl ?_
            simp only [rendezvous, makeCurrent, setEc_ec, if_true] at done
            cases done
            rw [setCpu_ec, field_setEc Ec.callee (by rfl), setPartner, setCpu_ec, field_setEc Ec.callee (by rfl), setEc_ec,
              if_pos rfl]
            rintro ⟨⟩
          split at done
          · rename_i call
            cases call.1
          split at done
          · exact Or.inr (killed (Except.ok.inj done).symm)
          · cases done
            refine Or.inr ⟨by simp, .sendMsg x, by simp [Ipc.again], ?_⟩
            rw [goto_pc, if_pos rfl]
            exact ⟨by rintro ⟨⟩, Or.inr ⟨by rintro ⟨⟩, x, rfl⟩⟩
  | tick d =>
      simp only [step] at done
      cases done
      exact Or.inr (stays rfl rfl)
  | go =>
      simp only [step, go, pc] at done
      cases done
      exact Or.inr (stays rfl rfl)
  | hypercall h =>
      simp only [step, hypercall, pc] at done
      cases done
      exact Or.inr (stays rfl rfl)
  | irq i y =>
      simp only [step, irq, pc, Pc.resume] at done
      cases done
      exact Or.inr (stays rfl rfl)
  | _ =>
      simp only [step, pc] at done
      cases done
      exact Or.inr (stays rfl rfl)

theorem sending_of_runs {a : Fin n} {g : Cont} (callee : (m.ec a).callee = none) (here : m.self c = a)
    (cont : (m.ec a).cont = some g) (sends : (m.cpu c).pc.Sends g) : m.Sending a :=
  ⟨callee, g, cont, Or.inl ⟨c, here, acts_of_sends sends, sends⟩⟩

/-- **A message stays on its way** until it is delivered. -/
theorem sending_step {event : Event n} {a : Fin n} (graph : Graph cfg m.view) (sending : m.Sending a)
    (done : m.step cfg c event = .ok m') :
    m'.Sending a ∨ m.self c = a ∧ (∃ x, (m.cpu c).pc = .ipc (.msg x)) ∧ (m'.ec a).callee ≠ none := by
  have move := step_move (c := c) graph event
  rw [done] at move
  change Move cfg m c m' at move
  refine or_iff_not_imp_right.mpr fun kept => ?_
  refine zone_move sending_closed graph sending move fun g here acts place cont => ?_
  subst here
  by_cases message : ∃ x, (m.cpu c).pc = .ipc (.msg x)
  · obtain ⟨x, pc⟩ := message
    rcases step_ipc graph pc done with delivered | ⟨same, g', cont', sends⟩
    · exact absurd ⟨rfl, ⟨x, pc⟩, delivered⟩ kept
    · refine sending_of_runs ?_ same cont' sends
      by_contra delivered
      exact kept ⟨rfl, ⟨x, pc⟩, delivered⟩
  · have silent : ∀ i, (m.cpu c).pc ≠ .ipc i := by
      intro i pc
      cases i with
      | msg x => exact message ⟨x, pc⟩
      | call =>
          rw [pc] at place
          rcases place.2 with direct | ⟨helps, -⟩
          · cases direct
          · exact helps rfl
    have kernel : (m.cpu c).pc ≠ .user := by
      intro pc
      rw [pc] at place
      rcases place.2 with direct | ⟨helps, -⟩
      · cases direct
      · exact helps rfl
    have alone : (m'.ec (m.self c)).callee = none := move.callee sending.callee fun _ => silent
    rcases move.own_step graph acts kernel silent cont place.1 with ⟨same, cont', goes⟩ | ⟨f, pc, -, -, -⟩ | ⟨-, dead, stops⟩
    · rcases place.2 with direct | ⟨helps, x, rfl⟩
      · exact sending_of_runs alone same cont' ⟨place.1, Or.inl (goes.direct direct silent)⟩
      · obtain ⟨t, helps⟩ := Option.ne_none_iff_exists'.mp helps
        rcases goes.helping helps with still | rests
        · exact sending_of_runs alone same cont' ⟨place.1, Or.inr ⟨by rw [still]; nofun, x, rfl⟩⟩
        · exact ⟨alone, .sendMsg x, cont', Or.inr ⟨rests_of_stop graph move rfl fun _ => rests, Or.inr ⟨x, rfl⟩⟩⟩
    · rw [pc] at place
      rcases place.2 with direct | ⟨helps, -⟩
      · cases direct
      · exact absurd rfl helps
    · exact ⟨alone, .dead, dead, Or.inr ⟨rests_of_stop graph move rfl stops, Or.inl rfl⟩⟩

/-- An EC that sends is at none of the places where it would be done with it. -/
theorem Sending.place {a : Fin n} (sending : m.Sending a) (graph : Graph cfg m.view) (here : m.self c = a) :
    (m.cpu c).pc.rests = true ∨ ∃ g, (m.cpu c).pc.Sends g := by
  obtain ⟨-, g, -, ⟨c', there, -, sends⟩ | ⟨still, -⟩⟩ := sending
  · have home : c' = c := (graph.home c').symm.trans ((congrArg cfg.cpu (there.trans here.symm)).trans (graph.home c))
    subst home
    exact Or.inr ⟨g, sends⟩
  · exact Or.inl (still c here)

theorem Sending.out {a : Fin n} (sending : m.Sending a) (graph : Graph cfg m.view) (here : m.self c = a) :
    (m.cpu c).pc ≠ .user ∧ ∀ f, (m.cpu c).pc ≠ .hazard f := by
  refine ⟨fun pc => ?_, fun f pc => ?_⟩
  all_goals
    rcases sending.place graph here with rests | ⟨g, -, direct | ⟨helps, -⟩⟩
    · rw [pc] at rests
      cases rests
    · rw [pc] at direct
      cases direct
    · rw [pc] at helps
      exact helps rfl

end Machine

/-! ## The wait loop -/

/-- In the wait loop of `sys_ctrl_ec`, or in the handler of an interrupt that came there -/
def Pc.pauses : Pc n → Bool
  | .pause | .wake _ .pause | .requeue _ .pause => true
  | _ => false

theorem Pc.pauses_iff {p : Pc n} :
    p.pauses = true ↔ p = .pause ∨ (∃ e, p = .wake e .pause) ∨ ∃ t, p = .requeue t .pause := by
  constructor
  · intro pauses
    cases p with
    | pause => exact Or.inl rfl
    | wake e back =>
        cases back with
        | pause => exact Or.inr (Or.inl ⟨e, rfl⟩)
        | _ => cases pauses
    | requeue t back =>
        cases back with
        | pause => exact Or.inr (Or.inr ⟨t, rfl⟩)
        | _ => cases pauses
    | _ => cases pauses
  · rintro (rfl | ⟨e, rfl⟩ | ⟨t, rfl⟩)
    · rfl
    · rfl
    · rfl

namespace Machine

variable {cfg : Config n k} {m m' : Machine n k} {c : Fin k}

theorem pauses_goto {p : Pc n} (pauses : p.pauses = true) : ((m.goto c p).cpu c).pc.pauses = true := by
  rw [goto_pc, if_pos rfl]
  exact pauses

/-- An interrupt in the wait loop -/
theorem pauses_irq {i : Irq n} {x : Msg} (pc : (m.cpu c).pc = .pause) (done : m.irq cfg c i x = .ok m') :
    (m'.cpu c).pc.pauses = true := by
  simp only [irq, pc, Pc.resume] at done
  have stays : (m.cpu c).pc.pauses = true := by
    rw [pc]
    rfl
  cases i with
  | rrq =>
      cases done
      exact pauses_goto rfl
  | rke =>
      cases done
      rw [setCpu_cpu, if_pos rfl]
      rfl
  | budget =>
      cases done
      split
      · rw [setCpu_cpu, if_pos rfl]
        rfl
      · exact stays
  | timeout e =>
      dsimp only at done
      unfold timeout at done
      split at done
      · cases done
        exact stays
      split at done
      · cases done
        exact stays
      dsimp only at done
      split at done
      · cases done
        exact pauses_goto rfl
      split at done
      · cases done
        exact pauses_goto rfl
      · cases done
  | gsi j =>
      cases done
      unfold up
      split
      · split
        · exact pauses_goto rfl
        · exact pauses_goto rfl
      · exact pauses_goto rfl

/-- The wait loop does not end by itself, nor does a handler leave it. -/
theorem pauses_step {event : Event n} (pauses : (m.cpu c).pc.pauses = true)
    (waits : event = .go → (m.cpu c).pc ≠ .pause) (done : m.step cfg c event = .ok m') : (m'.cpu c).pc.pauses = true := by
  have stays : m' = m → (m'.cpu c).pc.pauses = true := by
    rintro rfl
    exact pauses
  have kernel : ¬ ((m.cpu c).pc = .user ∧ cfg.Utcb (m.self c)) := by
    rintro ⟨user, -⟩
    rw [user] at pauses
    cases pauses
  cases event with
  | tick d =>
      simp only [step] at done
      cases done
      exact pauses
  | hypercall h =>
      simp only [step, hypercall, if_neg kernel] at done
      exact stays (Except.ok.inj done).symm
  | go =>
      rcases Pc.pauses_iff.mp pauses with pc | ⟨e, pc⟩ | ⟨t, pc⟩
      · exact absurd pc (waits rfl)
      · simp only [step, go, pc, wake] at done
        split at done
        · cases done
          exact pauses_goto rfl
        · rw [put_of_unblock done, pc_put]
          exact pauses
      · simp only [step, go, pc, requeue] at done
        split at done
        · cases done
          exact pauses_goto rfl
        · rw [(ready_of_readyEnqueue done).1, pc_putReady, setSc_cpu, setCpu_cpu, if_pos rfl]
          exact pauses
  | irq i x =>
      rcases Pc.pauses_iff.mp pauses with pc | ⟨e, pc⟩ | ⟨t, pc⟩
      · exact pauses_irq pc done
      · simp only [step, irq, pc, Pc.resume] at done
        exact stays (Except.ok.inj done).symm
      · simp only [step, irq, pc, Pc.resume] at done
        exact stays (Except.ok.inj done).symm
  | _ =>
      rcases Pc.pauses_iff.mp pauses with pc | ⟨e, pc⟩ | ⟨t, pc⟩
      all_goals
        simp only [step, pc] at done
        exact stays (Except.ok.inj done).symm

end Machine

/-! ## What a step does to the hazard -/

namespace System

variable {Regs Reply Drift : Type} {cfg : Config n k} {arch : Arch Regs Reply Drift} {c : Fin k} {count : Nat → Nat}
  {s s₁ s' : System n k Regs Reply}

/-- Only `handle_hazard` clears `RECALL`, and then the EC sends a message; an EC with that hazard does not get
to user mode. -/
structure Traced (cfg : Config n k) (arch : Arch Regs Reply Drift) (c : Fin k) (s s' : System n k Regs Reply) : Prop where
  step : ∃ event, s.machine.step cfg c event = .ok s'.machine
  keeps : ∀ a, arch.recalled (s.regs a) = true → arch.recalled (s'.regs a) = true ∨ a = s.machine.self c ∧
    (∃ r, (s.machine.cpu c).pc = .hazard (.user r)) ∧ ∃ x, (s'.machine.cpu c).pc = .ipc (.msg x)
  user : (s'.machine.cpu c).pc = .user →
    (s.machine.cpu c).pc = .user ∨ arch.recalled (s.regs (s.machine.self c)) = false

theorem run_eq_some {e : Machine.Event n} (done : s.run cfg c e = some s') :
    ∃ m, s.machine.step cfg c e = .ok m ∧ s' = { s with machine := m } := by
  unfold System.run at done
  split at done
  · cases done
  · rename_i m stepped
    exact ⟨m, stepped, (Option.some.inj done).symm⟩

theorem Traced.of_run {e : Machine.Event n} (graph : Graph cfg s.machine.view) (done : s₁.run cfg c e = some s')
    (same : s₁.machine = s.machine) (bits : ∀ a, arch.recalled (s.regs a) = true → arch.recalled (s₁.regs a) = true)
    (diverts : ∀ r, (s.machine.cpu c).pc = .ret r → arch.recalled (s.regs (s.machine.self c)) = true →
      e.returns = true → e = .divert)
    (takes : ∀ r, (s.machine.cpu c).pc = .hazard (.user r) → arch.recalled (s.regs (s.machine.self c)) = true →
      e.handles = true → e = .go → (s.machine.cpu c).sched = true) : Traced cfg arch c s s' := by
  obtain ⟨m, stepped, rfl⟩ := run_eq_some done
  rw [same] at stepped
  refine ⟨⟨e, stepped⟩, fun a set => Or.inl (bits a set), fun user => ?_⟩
  cases set : arch.recalled (s.regs (s.machine.self c)) with
  | false => exact Or.inr rfl
  | true =>
      refine Or.inl (Machine.step_barred graph stepped user (fun r pc => diverts r pc set) fun r pc => takes r pc set)

/-- At all other places, and with all other events, the machine does as it likes. -/
theorem Traced.of_place {e : Machine.Event n} (graph : Graph cfg s.machine.view) (done : s₁.run cfg c e = some s')
    (same : s₁.machine = s.machine) (bits : ∀ a, arch.recalled (s.regs a) = true → arch.recalled (s₁.regs a) = true)
    (ret : (∀ r, (s.machine.cpu c).pc ≠ .ret r) ∨ e.returns = false)
    (hazard : (∀ r, (s.machine.cpu c).pc ≠ .hazard (.user r)) ∨ e.handles = false) : Traced cfg arch c s s' := by
  refine Traced.of_run graph done same bits (fun r pc _ returns => ?_) fun r pc _ handles => ?_
  · rcases ret with other | other
    · exact absurd pc (other r)
    · rw [other] at returns
      cases returns
  · rcases hazard with other | other
    · exact absurd pc (other r)
    · rw [other] at handles
      cases handles

theorem recall_setRegs {a e : Fin n} {f : Regs → Regs} (keeps : ∀ r, arch.recalled r = true → arch.recalled (f r) = true)
    (set : arch.recalled (s.regs a) = true) : arch.recalled ((s.setRegs e f).regs a) = true := by
  unfold System.setRegs
  dsimp only
  by_cases here : a = e
  · subst here
    rw [Function.update_self]
    exact keeps _ set
  · rw [Function.update_of_ne here]
    exact set

theorem recall_begin {a : Fin n} (set : arch.recalled (s.regs a) = true) : arch.recalled ((s.begin_ arch c).regs a) = true := by
  unfold System.begin_
  dsimp only
  split
  · exact recall_setRegs (fun r is => (arch.recall_prepare r).trans is) set
  · exact set

theorem recall_stateSave {a e : Fin n} {x : Msg} {p : Reply} (set : arch.recalled (s.regs a) = true) :
    arch.recalled ((s.stateSave arch e x p).regs a) = true := by
  by_cases here : a = e
  · subst here
    have kept := arch.recall_save x p (s.regs a)
    unfold System.stateSave
    cases saved : arch.save x p (s.regs a) with
    | mk good r =>
        rw [saved] at kept
        cases good with
        | true =>
            dsimp only
            rw [Function.update_self]
            exact kept.trans set
        | false =>
            dsimp only
            rw [Function.update_self, arch.recall_setIllegal]
            exact kept.trans set
  · rw [stateSave_regs here]
    exact set

theorem traced_handleHazard {r : Ret} (graph : Graph cfg s.machine.view) (pc : (s.machine.cpu c).pc = .hazard (.user r))
    (done : s.handleHazard cfg arch c = some s') : Traced cfg arch c s s' := by
  have ret : (∀ r, (s.machine.cpu c).pc ≠ .ret r) := by
    intro r' is
    exact absurd (pc.symm.trans is) nofun
  unfold System.handleHazard at done
  dsimp only at done
  split at done
  · rename_i sched
    exact Traced.of_run graph done rfl (fun _ => id) (fun r' is => absurd is (ret r')) fun _ _ _ _ _ => sched
  rename_i free
  split at done
  · exact Traced.of_run graph done rfl (fun _ => id) (fun r' is => absurd is (ret r')) nofun
  split at done
  · obtain ⟨m, stepped, rfl⟩ := run_eq_some done
    have sends : (m.cpu c).pc = .ipc (.msg (Machine.Ret.recall r)) := by
      change s.machine.step cfg c .recalled = .ok m at stepped
      simp only [Machine.step, pc, if_neg free] at stepped
      cases stepped
      rw [Machine.goto_pc, if_pos rfl]
    refine ⟨⟨.recalled, stepped⟩, fun a set => ?_, fun user => ?_⟩
    · by_cases here : a = s.machine.self c
      · exact Or.inr ⟨here, ⟨r, pc⟩, _, sends⟩
      · refine Or.inl ?_
        unfold System.setRegs
        dsimp only
        rw [Function.update_of_ne here]
        exact set
    · rw [sends] at user
      cases user
  · rename_i clear
    exact Traced.of_run graph done rfl (fun _ => id) (fun r' is => absurd is (ret r')) fun _ _ set => absurd set clear

theorem traced_event (graph : Graph cfg s.machine.view) (vm : Msg) (e : Machine.Event n)
    (done : s.event cfg vm arch c e = some s') : Traced cfg arch c s s' := by
  unfold System.event at done
  split at done
  · rename_i r pc
    have hazard : ∀ r, (s.machine.cpu c).pc ≠ .hazard (.user r) := by
      intro r' is
      exact absurd (pc.symm.trans is) nofun
    split at done
    · refine Traced.of_run graph done rfl (fun _ => id) (fun r' _ set _ => ?_) fun r' is => absurd is (hazard r')
      rw [set, Bool.or_true]
      rfl
    · rename_i other
      exact Traced.of_place graph done rfl (fun _ => id) (Or.inr (by simpa using other)) (Or.inl hazard)
  · rename_i r pc
    split at done
    · exact traced_handleHazard graph pc done
    · rename_i other
      refine Traced.of_place graph done rfl (fun _ => id) (Or.inl fun r' is => absurd (pc.symm.trans is) nofun) (Or.inr ?_)
      rw [Machine.Event.handles_by]
      simpa using other
  · rename_i x pc
    have ret : ∀ r, (s.machine.cpu c).pc ≠ .ret r := by
      intro r' is
      exact absurd (pc.symm.trans is) nofun
    have hazard : ∀ r, (s.machine.cpu c).pc ≠ .hazard (.user r) := by
      intro r' is
      exact absurd (pc.symm.trans is) nofun
    split at done
    · exact Traced.of_place graph done begin_machine (fun _ => recall_begin) (Or.inl ret) (Or.inl hazard)
    · exact Traced.of_place graph done rfl (fun _ => id) (Or.inl ret) (Or.inl hazard)
  · rename_i ret hazard begins
    exact Traced.of_place graph done rfl (fun _ => id) (Or.inl fun r is => ret r is) (Or.inl fun r is => hazard r is)

/-- The registers change such that no recall is lost. -/
theorem Traced.of_regs (same : s'.machine = s.machine)
    (bits : ∀ a, arch.recalled (s.regs a) = true → arch.recalled (s'.regs a) = true) : Traced cfg arch c s s' := by
  refine ⟨⟨.tick 0, ?_⟩, fun a set => Or.inl (bits a set), fun user => Or.inl ?_⟩
  · rw [same]
    rfl
  · rw [← same]
    exact user

/-- A hypercall -/
theorem Traced.of_user {e : Machine.Event n} (graph : Graph cfg s.machine.view) (pc : (s.machine.cpu c).pc = .user)
    (done : s₁.run cfg c e = some s') (same : s₁.machine = s.machine)
    (bits : ∀ a, arch.recalled (s.regs a) = true → arch.recalled (s₁.regs a) = true) : Traced cfg arch c s s' :=
  Traced.of_place graph done same bits (Or.inl fun _ is => absurd (pc.symm.trans is) nofun)
    (Or.inl fun _ is => absurd (pc.symm.trans is) nofun)

theorem traced_step (graph : Graph cfg s.machine.view) (vm : Msg) (i : Input n Reply Drift)
    (done : s.step cfg vm arch c i = some s') : Traced cfg arch c s s' := by
  cases i with
  | event e =>
      unfold System.step at done
      dsimp only at done
      split at done
      · cases done
        exact Traced.of_regs rfl fun _ => id
      · exact traced_event graph vm e done
  | reply p =>
      change s.sysIpcReply cfg arch c p = some s' at done
      unfold System.sysIpcReply at done
      dsimp only at done
      split at done
      · rename_i enabled
        split at done
        · exact Traced.of_user graph enabled.1 done rfl fun _ => id
        · split at done
          · exact Traced.of_user graph enabled.1 done stateSave_machine fun _ => recall_stateSave
          · exact Traced.of_user graph enabled.1 done rfl fun _ => id
      · cases done
        exact Traced.of_regs rfl fun _ => id
  | ctrlEc e =>
      change s.sysCtrlEc cfg arch c e = some s' at done
      unfold System.sysCtrlEc at done
      split at done
      · rename_i enabled
        exact Traced.of_user graph enabled.1 done rfl fun _ => recall_setRegs fun r _ => arch.recall_setRecall r
      · cases done
        exact Traced.of_regs rfl fun _ => id
  | drift e d =>
      cases done
      exact Traced.of_regs rfl fun _ => recall_setRegs fun r is => (arch.recall_drift d r).trans is

theorem pauses_event {e : Machine.Event n} {vm : Msg} (pauses : (s.machine.cpu c).pc.pauses = true)
    (waits : e = .go → (s.machine.cpu c).pc ≠ .pause) (done : s.event cfg vm arch c e = some s') :
    (s'.machine.cpu c).pc.pauses = true := by
  unfold System.event at done
  split at done
  · rename_i r pc
    rw [pc] at pauses
    cases pauses
  · rename_i r pc
    rw [pc] at pauses
    cases pauses
  · rename_i x pc
    rw [pc] at pauses
    cases pauses
  · obtain ⟨m, stepped, rfl⟩ := run_eq_some done
    refine Machine.pauses_step pauses (fun is => waits ?_) stepped
    cases e with
    | go => rfl
    | _ => cases is

/-- The wait loop of `sys_ctrl_ec` ends with `.go` only. -/
theorem pauses_input {i : Input n Reply Drift} {vm : Msg} (pauses : (s.machine.cpu c).pc.pauses = true)
    (waits : i = .event .go → (s.machine.cpu c).pc ≠ .pause) (done : s.step cfg vm arch c i = some s') :
    (s'.machine.cpu c).pc.pauses = true := by
  have kernel : ¬ ((s.machine.cpu c).pc = .user ∧ cfg.Utcb (s.machine.self c)) := by
    rintro ⟨user, -⟩
    rw [user] at pauses
    cases pauses
  cases i with
  | event e =>
      unfold System.step at done
      dsimp only at done
      split at done
      · cases done
        exact pauses
      · exact pauses_event pauses (fun is => waits (congrArg Input.event is)) done
  | reply p =>
      change s.sysIpcReply cfg arch c p = some s' at done
      unfold System.sysIpcReply at done
      rw [if_neg kernel] at done
      cases done
      exact pauses
  | ctrlEc e =>
      change s.sysCtrlEc cfg arch c e = some s' at done
      unfold System.sysCtrlEc at done
      rw [if_neg kernel] at done
      cases done
      exact pauses
  | drift e d =>
      cases done
      exact pauses

end System

/-! ## The invariant -/

namespace Recalls

variable {Regs Reply Drift : Type} {cfg : Config n k} {arch : Arch Regs Reply Drift} {c : Fin k} {count : Nat → Nat}
  {s : Recalls n k Regs Reply} {t : System n k Regs Reply}

/-- A recall that was asked for when `d` had been taken: it is pending, or it has been taken since. -/
def Owed (arch : Arch Regs Reply Drift) (s : Recalls n k Regs Reply) (x : Fin n × Nat) : Prop :=
  x.2 ≤ s.taken x.1 ∧ (arch.recalled (s.system.regs x.1) = true ∨ x.2 < s.taken x.1)

/-- The EC is in user mode only if the recall has been taken. -/
def Held (s : Recalls n k Regs Reply) (x : Fin n × Nat) : Prop :=
  ∀ c, s.system.machine.self c = x.1 → (s.system.machine.cpu c).pc = .user → x.2 < s.taken x.1

/-- What `sys_ctrl_ec` knows -/
def Phase.Knows (cfg : Config n k) (s : Recalls n k Regs Reply) : Phase n → Prop
  | .sample e d | .count e d => (e, d) ∈ s.asked
  | .wait e cnt d => (e, d) ∈ s.asked ∧ (s.rke (cfg.cpu e) = cnt ∨ s.Held (e, d))

structure Sound (cfg : Config n k) (arch : Arch Regs Reply Drift) (count : Nat → Nat) (s : Recalls n k Regs Reply) : Prop where
  guarded : System.Guarded cfg arch count (fun _ _ _ _ => True) s.system
  sent : ∀ e, s.taken e = s.delivered e + (s.ep e).toNat
  sending : ∀ e, s.ep e = true → s.system.machine.Sending e
  owed : ∀ x ∈ s.asked, s.Owed arch x
  knows : ∀ c p, s.ctrl c = some p → Phase.Knows cfg s p
  passed : ∀ x ∈ s.passed, x ∈ s.asked ∧ s.Held x

/-- What a step of the system leaves, whichever message it is about -/
structure Noted (s s' : Recalls n k Regs Reply) (t : System n k Regs Reply) : Prop where
  system : s'.system = t
  ctrl : s'.ctrl = s.ctrl
  rke : s'.rke = s.rke
  asked : s'.asked = s.asked
  passed : s'.passed = s.passed
  taken : ∀ e, s.taken e ≤ s'.taken e

theorem noted : Noted s (s.note c t) t := by
  unfold note
  dsimp only
  split
  · refine ⟨rfl, rfl, rfl, rfl, rfl, fun e => ?_⟩
    dsimp only
    by_cases here : e = s.system.machine.self c
    · subst here
      rw [Function.update_self]
      exact Nat.le_succ _
    · rw [Function.update_of_ne here]
  · exact ⟨rfl, rfl, rfl, rfl, rfl, fun _ => le_rfl⟩
  · split
    · exact ⟨rfl, rfl, rfl, rfl, rfl, fun _ => le_rfl⟩
    · exact ⟨rfl, rfl, rfl, rfl, rfl, fun _ => le_rfl⟩
  · exact ⟨rfl, rfl, rfl, rfl, rfl, fun _ => le_rfl⟩

/-- A recall that is taken from its bit is counted. -/
theorem note_taken {r : Ret} {x : Msg} (pc : (s.system.machine.cpu c).pc = .hazard (.user r))
    (sends : (t.machine.cpu c).pc = .ipc (.msg x)) :
    s.note c t = { s with
      system := t
      ep := Function.update s.ep (s.system.machine.self c) true
      taken := Function.update s.taken (s.system.machine.self c) (s.taken (s.system.machine.self c) + 1) } := by
  unfold note
  rw [pc, sends]

theorem Owed.note {x : Fin n × Nat} (owed : s.Owed arch x) (traced : System.Traced cfg arch c s.system t) :
    (s.note c t).Owed arch x := by
  obtain ⟨le, either⟩ := owed
  have grows := (noted (s := s) (c := c) (t := t)).taken x.1
  refine ⟨le.trans grows, ?_⟩
  rcases either with pending | done
  · rcases traced.keeps x.1 pending with kept | ⟨here, ⟨r, pc⟩, y, sends⟩
    · refine Or.inl ?_
      rw [noted.system]
      exact kept
    · refine Or.inr ?_
      rw [note_taken pc sends]
      dsimp only
      rw [here, Function.update_self, ← here]
      exact Nat.lt_succ_of_le le
  · exact Or.inr (done.trans_le grows)

theorem Held.note {x : Fin n × Nat} (held : s.Held x) (owed : s.Owed arch x) (graph : Graph cfg s.system.machine.view)
    (traced : System.Traced cfg arch c s.system t) : (s.note c t).Held x := by
  intro c' here user
  rw [noted.system] at here user
  obtain ⟨event, done⟩ := traced.step
  have grows := (noted (s := s) (c := c) (t := t)).taken x.1
  refine lt_of_lt_of_le ?_ grows
  have move := Machine.step_move (c := c) graph event
  rw [done] at move
  change Machine.Move cfg s.system.machine c t.machine at move
  by_cases own : c' = c
  · subst own
    have same := (move.user_from user).1
    rw [same] at here
    rcases traced.user user with already | clear
    · exact held c' here already
    · rw [here] at clear
      rcases owed.2 with pending | taken
      · rw [pending] at clear
        cases clear
      · exact taken
  · obtain ⟨pc, same⟩ := System.elsewhere move own
    exact held c' (same.symm.trans here) (pc.symm.trans user)

/-- The EC sends the recall that it has taken. -/
theorem sending_taken {r : Ret} {x : Msg} {m m' : Machine n k} {event : Machine.Event n} (graph : Graph cfg m.view)
    (graph' : Graph cfg m'.view) (done : m.step cfg c event = .ok m') (pc : (m.cpu c).pc = .hazard (.user r))
    (sends : (m'.cpu c).pc = .ipc (.msg x)) : m'.Sending (m.self c) := by
  have move := Machine.step_move (c := c) graph event
  rw [done] at move
  change Machine.Move cfg m c m' at move
  have stands : m.view.Stands cfg c (m.cpu c).pc := graph.pc c
  rw [pc] at stands
  obtain ⟨g, cont, awake, -⟩ := stands
  have same : m'.self c = m.self c := by
    rcases move.own_step graph (by rw [pc]; rfl) (by rw [pc]; nofun) (fun i => by rw [pc]; nofun) cont awake with
      ⟨same, -⟩ | ⟨f, -, same, -⟩ | ⟨killed, -⟩
    · exact same
    · exact same
    · exact absurd (pc.symm.trans killed) nofun
  have stands' : m'.view.Stands cfg c (m'.cpu c).pc := graph'.pc c
  rw [sends] at stands'
  obtain ⟨⟨g', cont', awake', -⟩, -⟩ := stands'
  rw [← same]
  refine Machine.sending_of_runs (graph'.last c) rfl cont' ?_
  rw [sends]
  exact ⟨awake', Or.inl rfl⟩

/-- **What is taken is delivered**, or is on its way. -/
theorem Sound.sent_note (sound : Sound cfg arch count s) (graph' : Graph cfg t.machine.view)
    (traced : System.Traced cfg arch c s.system t) (e : Fin n) :
    (s.note c t).taken e = (s.note c t).delivered e + ((s.note c t).ep e).toNat ∧
      ((s.note c t).ep e = true → t.machine.Sending e) := by
  have graph := sound.guarded.sound.graph
  obtain ⟨event, done⟩ := traced.step
  -- an EC that sends is neither in user mode nor in `handle_hazard`
  have quiet : (s.system.machine.cpu c).pc = .user ∨ (∃ f, (s.system.machine.cpu c).pc = .hazard f) →
      s.ep (s.system.machine.self c) = false := by
    intro place
    rw [← Bool.not_eq_true]
    intro sends
    have out := (sound.sending _ sends).out graph rfl
    rcases place with pc | ⟨f, pc⟩
    · exact out.1 pc
    · exact out.2 f pc
  have others : (e ≠ s.system.machine.self c ∨ ∀ x, (s.system.machine.cpu c).pc ≠ .ipc (.msg x)) → s.ep e = true →
      t.machine.Sending e := by
    intro away sends
    rcases Machine.sending_step graph (sound.sending e sends) done with still | ⟨here, ⟨x, pc⟩, -⟩
    · exact still
    · rcases away with other | silent
      · exact absurd here.symm other
      · exact absurd pc (silent x)
  unfold note
  dsimp only
  split
  · rename_i r x pc sends
    dsimp only
    by_cases here : e = s.system.machine.self c
    · subst here
      rw [Function.update_self, Function.update_self, sound.sent, quiet (Or.inr ⟨_, pc⟩)]
      exact ⟨rfl, fun _ => sending_taken graph graph' done pc sends⟩
    · rw [Function.update_of_ne here, Function.update_of_ne here]
      exact ⟨sound.sent e, others (Or.inl here)⟩
  · rename_i x pc sends
    dsimp only
    by_cases here : e = s.system.machine.self c
    · subst here
      rw [Function.update_self, sound.sent, quiet (Or.inl pc)]
      exact ⟨rfl, nofun⟩
    · rw [Function.update_of_ne here]
      exact ⟨sound.sent e, others (Or.inl here)⟩
  · rename_i x q pc
    split
    · rename_i delivers
      dsimp only
      by_cases here : e = s.system.machine.self c
      · subst here
        rw [Function.update_self, Function.update_self, sound.sent, delivers.1]
        exact ⟨rfl, nofun⟩
      · rw [Function.update_of_ne here, Function.update_of_ne here]
        exact ⟨sound.sent e, others (Or.inl here)⟩
    · rename_i undelivered
      refine ⟨sound.sent e, fun sends => ?_⟩
      rcases Machine.sending_step graph (sound.sending e sends) done with still | ⟨rfl, -, delivered⟩
      · exact still
      · exact absurd ⟨sends, delivered⟩ undelivered
  · rename_i silent _ _
    exact ⟨sound.sent e, others (Or.inr silent)⟩

theorem Sound.note (sound : Sound cfg arch count s) (guarded' : System.Guarded cfg arch count (fun _ _ _ _ => True) t)
    (traced : System.Traced cfg arch c s.system t) : Sound cfg arch count (s.note c t) := by
  have graph := sound.guarded.sound.graph
  have noted := noted (s := s) (c := c) (t := t)
  have held : ∀ x ∈ s.asked, s.Held x → (s.note c t).Held x :=
    fun x asked held => held.note (sound.owed x asked) graph traced
  refine ⟨?_, fun e => ?_, fun e => ?_, fun x asked => ?_, fun c' p is => ?_, fun x is => ?_⟩
  · rw [noted.system]
    exact guarded'
  · exact (sound.sent_note guarded'.sound.graph traced e).1
  · rw [noted.system]
    exact (sound.sent_note guarded'.sound.graph traced e).2
  · rw [noted.asked] at asked
    exact (sound.owed x asked).note traced
  · rw [noted.ctrl] at is
    have knows := sound.knows c' p is
    cases p with
    | sample e d =>
        show (e, d) ∈ (s.note c t).asked
        rw [noted.asked]
        exact knows
    | count e d =>
        show (e, d) ∈ (s.note c t).asked
        rw [noted.asked]
        exact knows
    | wait e cnt d =>
        show (e, d) ∈ (s.note c t).asked ∧ _
        rw [noted.asked, noted.rke]
        exact ⟨knows.1, knows.2.imp_right (held _ knows.1)⟩
  · rw [noted.passed] at is
    obtain ⟨asked, was⟩ := sound.passed x is
    rw [noted.asked]
    exact ⟨asked, held x asked was⟩

/-! ## Steps -/

theorem Sound.input (sound : Sound cfg arch count s) (vm : Msg) (c : Fin k) (i : Input n Reply Drift) :
    ∃ t, s.system.step cfg vm arch c i = some t ∧ s.input cfg vm arch c i = some (s.note c t) ∧
      Sound cfg arch count (s.note c t) := by
  obtain ⟨t, done, guarded'⟩ := System.step_guarded (System.lawful_true arch) sound.guarded vm (c, i) (System.obeys_true _ _)
  refine ⟨t, done, ?_, sound.note guarded' (System.traced_step sound.guarded.sound.graph vm i done)⟩
  unfold Recalls.input
  rw [done]
  rfl

/-- The EC runs at home. -/
theorem home_of_self {m : Machine n k} (graph : Graph cfg m.view) {e : Fin n} {c' : Fin k} (here : m.self c' = e) :
    c' = cfg.cpu e :=
  (graph.home c').symm.trans (congrArg cfg.cpu here)

/-- An `RKE` interrupt: the CPU is not in user mode when the counter has changed. -/
theorem Sound.bump (sound : Sound cfg arch count s) (kernel : (s.system.machine.cpu c).pc ≠ .user) (r : BitVec 32) :
    Sound cfg arch count { s with rke := Function.update s.rke c r } := by
  refine ⟨sound.guarded, sound.sent, sound.sending, sound.owed, fun c' p is => ?_, sound.passed⟩
  have knows := sound.knows c' p is
  cases p with
  | sample e d => exact knows
  | count e d => exact knows
  | wait e cnt d =>
      refine ⟨knows.1, ?_⟩
      by_cases here : cfg.cpu e = c
      · refine Or.inr fun c₁ runs user => ?_
        rw [home_of_self sound.guarded.sound.graph runs, here] at user
        exact absurd user kernel
      · refine knows.2.imp_left fun same => ?_
        dsimp only
        rw [Function.update_of_ne here]
        exact same

theorem note_rke (rke : Fin k → BitVec 32) : { s with rke := rke }.note c t = { s.note c t with rke := rke } := by
  unfold note
  dsimp only
  split
  · rfl
  · rfl
  · split <;> rfl
  · rfl

theorem kernel_of_irq {s t : System n k Regs Reply} {vm : Msg}
    (done : s.step cfg vm arch c (.event (.irq .rke vm)) = some t) : (t.machine.cpu c).pc ≠ .user := by
  have taken : ∀ {x : Msg}, s.run cfg c (.irq .rke x) = some t → (t.machine.cpu c).pc ≠ .user := by
    intro x ran
    obtain ⟨m, stepped, rfl⟩ := System.run_eq_some ran
    simp only [Machine.step, Machine.irq] at stepped
    split at stepped
    · rename_i disabled
      cases stepped
      intro user
      rw [user] at disabled
      cases disabled
    · rename_i back _
      cases stepped
      dsimp only
      rw [Machine.setCpu_cpu, if_pos rfl]
      exact Machine.back_ne_user back
  change s.event cfg vm arch c (.irq .rke vm) = some t at done
  unfold System.event at done
  split at done
  · exact taken done
  · exact taken done
  · exact taken done
  · exact taken done

theorem kernel_of_resolve {s t : System n k Regs Reply} {vm : Msg} (pc : (s.machine.cpu c).pc = .user)
    (done : s.step cfg vm arch c (.event (.resolve vm)) = some t) : (t.machine.cpu c).pc ≠ .user := by
  change s.event cfg vm arch c (.resolve vm) = some t at done
  unfold System.event at done
  rw [pc] at done
  obtain ⟨m, stepped, rfl⟩ := System.run_eq_some done
  simp only [Machine.Event.by_, Machine.step, pc] at stepped
  cases stepped
  dsimp only
  rw [Machine.goto_pc, if_pos rfl]
  rintro ⟨⟩

theorem Sound.handleIpi (sound : Sound cfg arch count s) (vm : Msg) (c : Fin k) (resched : Bool) :
    ∃ s', s.handleIpi cfg vm arch c resched = some s' ∧ Sound cfg arch count s' := by
  have counted : ∀ i : Input n Reply Drift,
      (∀ t, s.system.step cfg vm arch c i = some t → (t.machine.cpu c).pc ≠ .user) →
      ∃ s', { s with rke := Function.update s.rke c (s.rke c + 1) }.input cfg vm arch c i = some s' ∧ Sound cfg arch count s' := by
    intro i leaves
    obtain ⟨t, done, -, sound'⟩ := sound.input vm c i
    refine ⟨{ s.note c t with rke := Function.update s.rke c (s.rke c + 1) }, ?_, ?_⟩
    · unfold Recalls.input
      dsimp only
      rw [done, Option.map_some, note_rke]
    · have kernel : ((s.note c t).system.machine.cpu c).pc ≠ .user := by
        rw [noted.system]
        exact leaves t done
      rw [← (noted (s := s) (c := c) (t := t)).rke]
      exact sound'.bump kernel _
  unfold Recalls.handleIpi
  dsimp only
  split
  · exact ⟨s, rfl, sound⟩
  split
  · exact counted _ fun t => kernel_of_irq
  split
  · rename_i user
    exact counted _ fun t => kernel_of_resolve user
  · rename_i kernel
    exact ⟨_, rfl, sound.bump kernel _⟩

theorem Sound.ask (sound : Sound cfg arch count s) (e : Fin n) (event : Machine.Event n)
    (pc : (s.system.machine.cpu c).pc = .user) :
    ∃ t, (s.system.setRegs e arch.setRecall).run cfg c event = some t ∧
      Sound cfg arch count ({ s with asked := (e, s.taken e) :: s.asked }.note c t) := by
  have guarded₁ : System.Guarded cfg arch count (fun _ _ _ _ => True) (s.system.setRegs e arch.setRecall) :=
    sound.guarded.setRegs (arch.illegal_setRecall _) trivial
  have heedful : System.Heedful cfg arch c event (s.system.setRegs e arch.setRecall) := by
    refine System.heedful_of_place (fun r is => ?_) (fun r is => ?_) fun x is => ?_
    all_goals exact absurd (pc.symm.trans is) nofun
  obtain ⟨m, ran, -, guarded'⟩ := guarded₁.run heedful
  refine ⟨_, ran, ?_⟩
  have recalled : arch.recalled ((s.system.setRegs e arch.setRecall).regs e) = true := by
    unfold System.setRegs
    dsimp only
    rw [Function.update_self]
    exact arch.recall_setRecall _
  have asked : Sound cfg arch count
      { s with system := s.system.setRegs e arch.setRecall, asked := (e, s.taken e) :: s.asked } := by
    refine ⟨guarded₁, sound.sent, sound.sending, fun x member => ?_, fun c' p is => ?_, fun x is => ?_⟩
    · rcases List.mem_cons.mp member with rfl | member
      · exact ⟨le_rfl, Or.inl recalled⟩
      · obtain ⟨le, either⟩ := sound.owed x member
        exact ⟨le, either.imp_left (System.recall_setRegs fun r _ => arch.recall_setRecall r)⟩
    · have knows := sound.knows c' p is
      cases p with
      | sample e d => exact List.mem_cons_of_mem _ knows
      | count e d => exact List.mem_cons_of_mem _ knows
      | wait e cnt d => exact ⟨List.mem_cons_of_mem _ knows.1, knows.2⟩
    · exact ⟨List.mem_cons_of_mem _ (sound.passed x is).1, (sound.passed x is).2⟩
  exact asked.note guarded' (System.Traced.of_user guarded₁.sound.graph pc ran rfl fun _ => id)

theorem Sound.setCtrl (sound : Sound cfg arch count s) {p : Phase n} (knows : Phase.Knows cfg s p) :
    Sound cfg arch count { s with ctrl := Function.update s.ctrl c (some p) } := by
  refine ⟨sound.guarded, sound.sent, sound.sending, sound.owed, fun c' q is => ?_, sound.passed⟩
  dsimp only at is
  by_cases here : c' = c
  · subst here
    rw [Function.update_self] at is
    obtain rfl := Option.some.inj is
    exact knows
  · rw [Function.update_of_ne here] at is
    exact sound.knows c' q is

theorem Sound.pass (sound : Sound cfg arch count s) (vm : Msg) {e : Fin n} {d : Nat} (asked : (e, d) ∈ s.asked)
    (held : s.Held (e, d)) : ∃ s', s.pass cfg vm arch c e d = some s' ∧ Sound cfg arch count s' := by
  have passed : Sound cfg arch count
      { s with ctrl := Function.update s.ctrl c none, passed := (e, d) :: s.passed } := by
    refine ⟨sound.guarded, sound.sent, sound.sending, sound.owed, fun c' q is => ?_, fun x is => ?_⟩
    · dsimp only at is
      by_cases here : c' = c
      · subst here
        rw [Function.update_self] at is
        cases is
      · rw [Function.update_of_ne here] at is
        exact sound.knows c' q is
    · rcases List.mem_cons.mp is with rfl | is
      · exact ⟨asked, held⟩
      · exact sound.passed x is
  obtain ⟨t, -, done, sound'⟩ := passed.input vm c (.event .go)
  exact ⟨_, done, sound'⟩

theorem Sound.sysCtrlStrong (sound : Sound cfg arch count s) (vm : Msg) (c : Fin k) :
    ∃ s', s.sysCtrlStrong cfg vm arch c = some s' ∧ Sound cfg arch count s' := by
  unfold Recalls.sysCtrlStrong
  split
  · rename_i pc
    split
    · exact ⟨s, rfl, sound⟩
    · rename_i e d is
      have asked : (e, d) ∈ s.asked := sound.knows c _ is
      split
      · exact ⟨_, rfl, sound.setCtrl asked⟩
      · rename_i away
        -- the EC is current nowhere but here, where the hypercall is executed
        refine sound.pass vm asked fun c' here user => ?_
        obtain rfl := home_of_self sound.guarded.sound.graph here
        by_cases local_ : c = cfg.cpu e
        · subst local_
          rw [pc] at user
          cases user
        · exact absurd ⟨local_, here⟩ away
    · rename_i e d is
      exact ⟨_, rfl, sound.setCtrl ⟨sound.knows c _ is, Or.inl rfl⟩⟩
    · rename_i e cnt d is
      obtain ⟨asked, either⟩ := sound.knows c _ is
      split
      · exact ⟨s, rfl, sound⟩
      · rename_i changed
        exact sound.pass vm asked (either.resolve_left changed)
  · exact ⟨s, rfl, sound⟩

theorem Sound.sysCtrlEc (sound : Sound cfg arch count s) (vm : Msg) (c : Fin k) (e : Fin n) (strong : Bool) :
    ∃ s', s.sysCtrlEc cfg vm arch c e strong = some s' ∧ Sound cfg arch count s' := by
  unfold Recalls.sysCtrlEc
  split
  · rename_i enabled
    dsimp only
    split
    · obtain ⟨t, ran, sound'⟩ := sound.ask e (.hypercall .ctrlEc) enabled.1
      refine ⟨_, by rw [ran]; rfl, ?_⟩
      have here : (e, s.taken e) ∈ ({ s with asked := (e, s.taken e) :: s.asked }.note c t).asked := by
        rw [noted.asked]
        exact List.mem_cons_self
      have fixed := sound'.setCtrl (c := c) (p := .sample e (s.taken e)) here
      rw [noted.ctrl] at fixed
      exact fixed
    · obtain ⟨t, ran, sound'⟩ := sound.ask e (.hypercall (.other .success)) enabled.1
      refine ⟨_, ?_, sound'⟩
      unfold Recalls.input System.step System.sysCtrlEc
      dsimp only
      rw [if_pos enabled, ran]
      rfl
  · exact ⟨s, rfl, sound⟩

theorem step_sound (sound : Sound cfg arch count s) (vm : Msg) (a : Fin k × Act n Reply Drift) :
    ∃ s', s.step cfg vm arch a.1 a.2 = some s' ∧ Sound cfg arch count s' := by
  obtain ⟨c, a⟩ := a
  cases a with
  | input i =>
      unfold step
      dsimp only
      split
      · exact ⟨s, rfl, sound⟩
      · obtain ⟨t, -, done, sound'⟩ := sound.input vm c i
        exact ⟨_, done, sound'⟩
  | rke resched => exact sound.handleIpi vm c resched
  | ctrlEc e strong => exact sound.sysCtrlEc vm c e strong
  | ctrl => exact sound.sysCtrlStrong vm c

theorem sound_start (root : Option (Fin n)) (vm : Msg) (regs : Fin n → Regs) :
    Sound cfg arch count (start cfg vm root count regs : Recalls n k Regs Reply) := by
  refine ⟨System.guarded_start root vm regs fun _ => trivial, fun _ => rfl, nofun, nofun, nofun, nofun⟩

/-! ## The hypercall -/

/-- CPU `c` is in the wait loop of `sys_ctrl_ec` for the recall `x`. -/
structure Waits (s : Recalls n k Regs Reply) (c : Fin k) (x : Fin n × Nat) : Prop where
  ctrl : (s.ctrl c).map Phase.call = some x
  pc : (s.system.machine.cpu c).pc.pauses = true

/-- What a step of one CPU leaves of the wait loops of the others -/
structure Aside (c : Fin k) (s s' : Recalls n k Regs Reply) : Prop where
  passed : ∀ x ∈ s.passed, x ∈ s'.passed
  waits : ∀ c' ≠ c, ∀ x, s.Waits c' x → s'.Waits c' x

theorem Aside.refl : Aside c s s := ⟨fun _ => id, fun _ _ _ => id⟩

theorem aside_ctrl (p : Option (Phase n)) (passed : List (Fin n × Nat)) (more : ∀ x ∈ s.passed, x ∈ passed) :
    Aside c s { s with ctrl := Function.update s.ctrl c p, passed := passed } := by
  refine ⟨more, fun c' away x waits => ⟨?_, waits.pc⟩⟩
  dsimp only
  rw [Function.update_of_ne away]
  exact waits.ctrl

theorem Aside.trans {s₁ s₂ : Recalls n k Regs Reply} (first : Aside c s s₁) (second : Aside c s₁ s₂) : Aside c s s₂ :=
  ⟨fun x is => second.passed x (first.passed x is), fun c' away x waits => second.waits c' away x (first.waits c' away x waits)⟩

theorem aside_note (graph : Graph cfg s.system.machine.view) (traced : System.Traced cfg arch c s.system t) :
    Aside c s (s.note c t) := by
  obtain ⟨event, done⟩ := traced.step
  have move := Machine.step_move (c := c) graph event
  rw [done] at move
  change Machine.Move cfg s.system.machine c t.machine at move
  refine ⟨fun x is => ?_, fun c' away x waits => ⟨?_, ?_⟩⟩
  · rw [noted.passed]
    exact is
  · rw [noted.ctrl]
    exact waits.ctrl
  · rw [noted.system, (System.elsewhere move away).1]
    exact waits.pc

theorem aside_input {s' : Recalls n k Regs Reply} (graph : Graph cfg s.system.machine.view) (vm : Msg) {i : Input n Reply Drift}
    (done : s.input cfg vm arch c i = some s') : Aside c s s' := by
  obtain ⟨t, stepped, rfl⟩ := Option.map_eq_some_iff.mp done
  exact aside_note graph (System.traced_step graph vm i stepped)

/-- Nothing but the wait loop itself ends the wait loop. -/
theorem Waits.input {s' : Recalls n k Regs Reply} {x : Fin n × Nat} (waits : s.Waits c x) (vm : Msg) {i : Input n Reply Drift}
    (stays : i = .event .go → (s.system.machine.cpu c).pc ≠ .pause) (done : s.input cfg vm arch c i = some s') :
    s'.Waits c x := by
  obtain ⟨t, stepped, rfl⟩ := Option.map_eq_some_iff.mp done
  refine ⟨?_, ?_⟩
  · rw [noted.ctrl]
    exact waits.ctrl
  · rw [noted.system]
    exact System.pauses_input waits.pc stays stepped

/-- `sys_ctrl_ec` sets the bit, whatever else it does. -/
theorem traced_ask (graph : Graph cfg s.system.machine.view) {e : Fin n} {event : Machine.Event n}
    (pc : (s.system.machine.cpu c).pc = .user) (ran : (s.system.setRegs e arch.setRecall).run cfg c event = some t) :
    System.Traced cfg arch c s.system t :=
  System.Traced.of_user graph pc ran rfl fun _ => System.recall_setRegs fun r _ => arch.recall_setRecall r

theorem aside_pass {s' : Recalls n k Regs Reply} (graph : Graph cfg s.system.machine.view) (vm : Msg) {e : Fin n} {d : Nat}
    (done : s.pass cfg vm arch c e d = some s') : Aside c s s' :=
  (aside_ctrl none ((e, d) :: s.passed) fun _ => List.mem_cons_of_mem _).trans (aside_input graph vm done)

/-- A step of a CPU leaves the wait loops of the other CPUs alone, and no hypercall is past its loop twice. -/
theorem aside_step {s' : Recalls n k Regs Reply} (graph : Graph cfg s.system.machine.view) (vm : Msg) {a : Act n Reply Drift}
    (done : s.step cfg vm arch c a = some s') : Aside c s s' := by
  have same : s = s' → Aside c s s' := by
    rintro rfl
    exact .refl
  cases a with
  | input i =>
      unfold step at done
      dsimp only at done
      split at done
      · exact same (Option.some.inj done)
      · exact aside_input graph vm done
  | rke resched =>
      have counted : Aside c s { s with rke := Function.update s.rke c (s.rke c + 1) } :=
        ⟨fun _ => id, fun _ _ _ waits => ⟨waits.ctrl, waits.pc⟩⟩
      change s.handleIpi cfg vm arch c resched = some s' at done
      unfold handleIpi at done
      dsimp only at done
      split at done
      · exact same (Option.some.inj done)
      split at done
      · exact counted.trans (aside_input graph vm done)
      split at done
      · exact counted.trans (aside_input graph vm done)
      · cases done
        exact counted
  | ctrlEc e strong =>
      have asked : Aside c s { s with asked := (e, s.taken e) :: s.asked } :=
        ⟨fun _ => id, fun _ _ _ waits => ⟨waits.ctrl, waits.pc⟩⟩
      change s.sysCtrlEc cfg vm arch c e strong = some s' at done
      unfold Recalls.sysCtrlEc at done
      split at done
      · rename_i enabled
        dsimp only at done
        split at done
        · obtain ⟨t, ran, rfl⟩ := Option.map_eq_some_iff.mp done
          have traced : System.Traced cfg arch c s.system t := traced_ask graph enabled.1 ran
          have moved : Aside c s ({ s with asked := (e, s.taken e) :: s.asked }.note c t) :=
            asked.trans (aside_note graph traced)
          have begun := moved.trans (aside_ctrl (c := c) (some (.sample e (s.taken e))) _ fun _ => id)
          rw [noted.ctrl] at begun
          exact begun
        · exact asked.trans (aside_input graph vm done)
      · exact same (Option.some.inj done)
  | ctrl =>
      change s.sysCtrlStrong cfg vm arch c = some s' at done
      unfold Recalls.sysCtrlStrong at done
      split at done
      · split at done
        · exact same (Option.some.inj done)
        · split at done
          · cases done
            exact aside_ctrl _ _ fun _ => id
          · exact aside_pass graph vm done
        · cases done
          exact aside_ctrl _ _ fun _ => id
        · split at done
          · exact same (Option.some.inj done)
          · exact aside_pass graph vm done
      · exact same (Option.some.inj done)

theorem mem_of_pass {s' : Recalls n k Regs Reply} (graph : Graph cfg s.system.machine.view) (vm : Msg) {e : Fin n} {d : Nat}
    (done : s.pass cfg vm arch c e d = some s') : (e, d) ∈ s'.passed := by
  have later : Aside c { s with ctrl := Function.update s.ctrl c none, passed := (e, d) :: s.passed } s' :=
    aside_input graph vm done
  exact later.passed _ List.mem_cons_self

/-- The next phase of the wait loop -/
theorem waits_setCtrl {p : Phase n} {x : Fin n × Nat} (call : p.call = x) (pc : (s.system.machine.cpu c).pc.pauses = true) :
    { s with ctrl := Function.update s.ctrl c (some p) }.Waits c x := by
  refine ⟨?_, pc⟩
  dsimp only
  rw [Function.update_self, Option.map_some, call]

/-- A step of the wait loop of `sys_ctrl_ec`: it is past its loop, or still waits for the same recall. -/
theorem Waits.sysCtrlStrong {s' : Recalls n k Regs Reply} {x : Fin n × Nat} (waits : s.Waits c x)
    (graph : Graph cfg s.system.machine.view) (vm : Msg) (done : s.sysCtrlStrong cfg vm arch c = some s') :
    x ∈ s'.passed ∨ s'.Waits c x := by
  have same : s = s' → x ∈ s'.passed ∨ s'.Waits c x := by
    rintro rfl
    exact Or.inr waits
  have is {p : Phase n} (ctrl : s.ctrl c = some p) : p.call = x := by
    have held := waits.ctrl
    rw [ctrl] at held
    exact Option.some.inj held
  unfold Recalls.sysCtrlStrong at done
  split at done
  · split at done
    · exact same (Option.some.inj done)
    · rename_i e d ctrl
      have call : (e, d) = x := is ctrl
      split at done
      · cases done
        exact Or.inr (waits_setCtrl call waits.pc)
      · rw [← call]
        exact Or.inl (mem_of_pass graph vm done)
    · rename_i e d ctrl
      have call : (e, d) = x := is ctrl
      cases done
      exact Or.inr (waits_setCtrl call waits.pc)
    · rename_i e cnt d ctrl
      have call : (e, d) = x := is ctrl
      split at done
      · exact same (Option.some.inj done)
      · rw [← call]
        exact Or.inl (mem_of_pass graph vm done)
  · exact same (Option.some.inj done)

/-- A step of the CPU itself: also an interrupt does not end the wait loop. -/
theorem Waits.step {s' : Recalls n k Regs Reply} {x : Fin n × Nat} (waits : s.Waits c x)
    (graph : Graph cfg s.system.machine.view) (vm : Msg) {a : Act n Reply Drift} (done : s.step cfg vm arch c a = some s') :
    x ∈ s'.passed ∨ s'.Waits c x := by
  have same : s = s' → x ∈ s'.passed ∨ s'.Waits c x := by
    rintro rfl
    exact Or.inr waits
  have kernel : (s.system.machine.cpu c).pc ≠ .user := by
    intro user
    have pauses := waits.pc
    rw [user] at pauses
    cases pauses
  cases a with
  | input i =>
      unfold Recalls.step at done
      dsimp only at done
      split at done
      · exact same (Option.some.inj done)
      · rename_i free
        refine Or.inr (waits.input vm ?_ done)
        rintro rfl pause
        refine free ?_
        unfold reserved
        exact decide_eq_true pause
  | rke resched =>
      have counted : Waits { s with rke := Function.update s.rke c (s.rke c + 1) } c x := ⟨waits.ctrl, waits.pc⟩
      change s.handleIpi cfg vm arch c resched = some s' at done
      unfold handleIpi at done
      dsimp only at done
      split at done
      · exact same (Option.some.inj done)
      split at done
      · refine Or.inr (counted.input vm ?_ done)
        nofun
      · -- the CPU is not in user mode
        cases done
        exact Or.inr counted
  | ctrlEc e strong =>
      change s.sysCtrlEc cfg vm arch c e strong = some s' at done
      unfold Recalls.sysCtrlEc at done
      rw [if_neg fun enabled => kernel enabled.1] at done
      exact same (Option.some.inj done)
  | ctrl => exact waits.sysCtrlStrong graph vm done

/-- `sys_ctrl_ec` is past its wait loop for the recall `x`, or in it. -/
def Pending (c : Fin k) (x : Fin n × Nat) (s : Recalls n k Regs Reply) : Prop := x ∈ s.passed ∨ s.Waits c x

theorem pending_step {s' : Recalls n k Regs Reply} {x : Fin n × Nat} (graph : Graph cfg s.system.machine.view) (vm : Msg)
    (a : Fin k × Act n Reply Drift) (pending : s.Pending c x) (done : s.step cfg vm arch a.1 a.2 = some s') : s'.Pending c x := by
  have aside := aside_step graph vm done
  rcases pending with passed | waits
  · exact Or.inl (aside.passed x passed)
  · by_cases own : c = a.1
    · subst own
      exact waits.step graph vm done
    · exact Or.inr (aside.waits c own x waits)

theorem pending_runs {s' : Recalls n k Regs Reply} {x : Fin n × Nat} (sound : Sound cfg arch count s) (vm : Msg)
    (pending : s.Pending c x) (later : List (Fin k × Act n Reply Drift))
    (ran : runs (fun a s => s.step cfg vm arch a.1 a.2) s later = some s') : s'.Pending c x := by
  refine (runs_keeps (I := fun s => Sound cfg arch count s ∧ s.Pending c x) ?_ ⟨sound, pending⟩ ran).2
  rintro s a s' ⟨sound, pending⟩ done
  obtain ⟨s'', done', sound'⟩ := step_sound sound vm a
  obtain rfl := Option.some.inj (done'.symm.trans done)
  exact ⟨sound', pending_step sound.guarded.sound.graph vm a pending done⟩

/-- `sys_ctrl_ec` sets the bit and asks for the recall; with the strong flag it then waits. -/
theorem Sound.asks (sound : Sound cfg arch count s) (vm : Msg) (e : Fin n) (strong : Bool)
    (pc : (s.system.machine.cpu c).pc = .user) (utcb : cfg.Utcb (s.system.machine.self c)) :
    ∃ s', s.step cfg vm arch c (.ctrlEc e strong) = some s' ∧ Sound cfg arch count s' ∧
      arch.recalled (s'.system.regs e) = true ∧ (e, s.taken e) ∈ s'.asked ∧
      (strong = true → s'.Waits c (e, s.taken e)) ∧ (strong = false → (s'.system.machine.cpu c).pc = .finish .success) := by
  obtain ⟨s', done, sound'⟩ := sound.sysCtrlEc vm c e strong
  refine ⟨s', done, sound', ?_⟩
  unfold Recalls.sysCtrlEc at done
  rw [if_pos ⟨pc, utcb⟩] at done
  dsimp only at done
  have recalled : arch.recalled ((s.system.setRegs e arch.setRecall).regs e) = true := by
    unfold System.setRegs
    dsimp only
    rw [Function.update_self]
    exact arch.recall_setRecall _
  cases strong with
  | true =>
      rw [if_pos rfl] at done
      obtain ⟨t, ran, rfl⟩ := Option.map_eq_some_iff.mp done
      obtain ⟨m, stepped, rfl⟩ := System.run_eq_some ran
      have pauses : (m.cpu c).pc.pauses = true := by
        change s.system.machine.hypercall cfg c .ctrlEc = .ok m at stepped
        unfold Machine.hypercall at stepped
        rw [if_pos ⟨pc, utcb⟩] at stepped
        cases stepped
        exact Machine.pauses_goto rfl
      refine ⟨?_, ?_, fun _ => ⟨?_, ?_⟩, nofun⟩
      · dsimp only
        rw [noted.system]
        exact recalled
      · dsimp only
        rw [noted.asked]
        exact List.mem_cons_self
      · dsimp only
        rw [Function.update_self]
        rfl
      · dsimp only
        rw [noted.system]
        exact pauses
  | false =>
      rw [if_neg Bool.false_ne_true] at done
      obtain ⟨t, stepped, rfl⟩ := Option.map_eq_some_iff.mp done
      change s.system.sysCtrlEc cfg arch c e = some t at stepped
      unfold System.sysCtrlEc at stepped
      rw [if_pos ⟨pc, utcb⟩] at stepped
      obtain ⟨m, ran, rfl⟩ := System.run_eq_some stepped
      change s.system.machine.hypercall cfg c (.other .success) = .ok m at ran
      unfold Machine.hypercall at ran
      rw [if_pos ⟨pc, utcb⟩] at ran
      cases ran
      refine ⟨?_, ?_, nofun, fun _ => ?_⟩
      · rw [noted.system]
        exact recalled
      · rw [noted.asked]
        exact List.mem_cons_self
      · rw [noted.system, Machine.goto_pc, if_pos rfl]

/-- What is asked for is not lost, and after the wait loop it comes before anything else. -/
structure Synchronous (arch : Arch Regs Reply Drift) (s : Recalls n k Regs Reply) : Prop where
  passed_delivered : ∀ x ∈ s.passed, ∀ c, s.system.machine.self c = x.1 → (s.system.machine.cpu c).pc = .user →
    x.2 < s.delivered x.1
  owed : ∀ x ∈ s.asked, arch.recalled (s.system.regs x.1) = true ∨ x.2 < s.taken x.1
  on_its_way : ∀ e, s.taken e = s.delivered e ∨ s.taken e = s.delivered e + 1 ∧ s.ep e = true ∧ s.system.machine.Sending e

/-- A thread that executes `sys_ctrl_ec` asks for a recall and sets the bit.  With the strong flag its CPU
is in the wait loop until the hypercall has passed it, whatever happens meanwhile. -/
def Calls (cfg : Config n k) (vm : Msg) (arch : Arch Regs Reply Drift) (s : Recalls n k Regs Reply) : Prop :=
  ∀ c e strong, (s.system.machine.cpu c).pc = .user → cfg.Utcb (s.system.machine.self c) →
    ∃ s', s.step cfg vm arch c (.ctrlEc e strong) = some s' ∧ arch.recalled (s'.system.regs e) = true ∧
      (e, s.taken e) ∈ s'.asked ∧ (strong = false → (s'.system.machine.cpu c).pc = .finish .success) ∧
      (strong = true → ∀ (later : List (Fin k × Act n Reply Drift)) t,
        runs (fun a s => s.step cfg vm arch a.1 a.2) s' later = some t → t.Pending c (e, s.taken e))

theorem Sound.synchronous (sound : Sound cfg arch count s) : Synchronous arch s := by
  refine ⟨fun x member c here user => ?_, fun x asked => (sound.owed x asked).2, fun e => ?_⟩
  · have taken := (sound.passed x member).2 c here user
    have quiet : s.ep x.1 = false := by
      rw [← Bool.not_eq_true]
      intro sends
      exact ((sound.sending _ sends).out sound.guarded.sound.graph here).1 user
    rw [sound.sent, quiet] at taken
    exact taken
  · cases sends : s.ep e with
    | false =>
        refine Or.inl ?_
        rw [sound.sent, sends]
        rfl
    | true =>
        refine Or.inr ⟨?_, rfl, sound.sending e sends⟩
        rw [sound.sent, sends]
        rfl

theorem Sound.calls (sound : Sound cfg arch count s) (vm : Msg) : Calls cfg vm arch s := by
  intro c e strong pc utcb
  obtain ⟨s', done, sound', recalled, asked, waits, returns⟩ := sound.asks vm e strong pc utcb
  exact ⟨s', done, recalled, asked, returns, fun is later t ran => pending_runs sound' vm (Or.inr (waits is)) later ran⟩

/-- **Strong recall is synchronous**, in every run. -/
theorem strong_recall (root : Option (Fin n)) (vm : Msg) (regs : Fin n → Regs) (acts : List (Fin k × Act n Reply Drift)) :
    ∃ s, runs (fun a s => s.step cfg vm arch a.1 a.2) (start cfg vm root count regs) acts = some s ∧
      Synchronous arch s ∧ Calls cfg vm arch s := by
  obtain ⟨s, done, sound⟩ := Legal.safe (I := Sound cfg arch count) (G := fun _ _ => True)
    (fun _ a sound _ => step_sound sound vm a) acts _ (sound_start root vm regs) (Legal.of_forall (fun _ _ => trivial) acts _)
  exact ⟨s, done, sound.synchronous, sound.calls vm⟩

local instance recalls_two : NeZero 2 := ⟨by decide⟩
local instance recalls_five : NeZero 5 := ⟨by decide⟩

/-- The ECs of the SCs -/
def boundEc (s : Nat) : Fin 5 := if s = 0 then 0 else if s = 1 then 1 else if s = 2 then 2 else 3

theorem boundEc_idle {s : Nat} {c : Fin 2} (is : boundEc s = if c = 0 then 0 else 1) : s = if c = 0 then 0 else 1 := by
  match s with
  | 0 => revert c; decide
  | 1 => revert c; decide
  | 2 => revert c; decide
  | s + 3 =>
      rw [boundEc, if_neg (by omega), if_neg (by omega), if_neg (by omega)] at is
      split at is <;> cases is

/-- Two CPUs with their idle ECs 0 and 1, the EC 2 with the SC 2 on the first CPU, and the EC 3 on the second
CPU, with the local EC 4 of its VMM -/
def twoCpus : Config 5 2 where
  subtype := fun e => if e = 4 then .ecLocal else .ecGlobal
  cpu := fun e => if e = 0 ∨ e = 2 then 0 else 1
  ec := boundEc
  prio := fun s => if s ≤ 1 then 0 else 1
  budget := fun _ => 10
  idleEc := fun c => if c = 0 then 0 else 1
  idleSc := fun c => if c = 0 then 0 else 1
  prio_lt := by
    intro s
    show (if s ≤ 1 then 0 else 1) < 128
    split <;> decide
  idle_cpu := by decide
  idle_subtype := by decide
  idle_ec := by decide
  idle_only := fun _ _ is => boundEc_idle is
  idle_prio := by decide
  ec_count := by decide

/-- Registers that are nothing but the bits `ILLEGAL` and `RECALL` -/
def hazards : Arch (Bool × Bool) Unit Unit where
  illegal r := r.1
  recalled r := r.2
  setIllegal r := (true, r.2)
  setRecall r := (r.1, true)
  clrRecall r := (r.1, false)
  prepare r := r
  save _ _ r := (true, r)
  drift _ r := r
  illegal_setIllegal _ := rfl
  illegal_setRecall _ := rfl
  illegal_clrRecall _ := rfl
  illegal_prepare _ := rfl
  illegal_drift _ _ := rfl
  recall_setRecall _ := rfl
  recall_clrRecall _ := rfl
  recall_setIllegal _ := rfl
  recall_prepare _ := rfl
  recall_save _ _ _ := rfl
  recall_drift _ _ := rfl

def continue_ : Act 5 Unit Unit := .input (.event .go)

/-- EC 2 creates the SC of EC 3, which is dispatched on the other CPU, and its VMM lets it run. -/
def boots : List (Fin 2 × Act 5 Unit Unit) :=
  (0, .input (.event (.createRoot 2))) :: List.replicate 6 (0, continue_) ++
    (0, .input (.event (.hypercall (.createSc 3)))) :: List.replicate 2 (0, continue_) ++ List.replicate 5 (1, continue_) ++
    (1, .input (.event (.irq .rrq .exception))) :: List.replicate 9 (1, continue_) ++
    [(1, .input (.event (.lookup (some 4) false))), (1, continue_), (1, continue_), (1, .input (.reply ())), (1, continue_),
      (1, continue_)]

/-- EC 2 recalls EC 3, which is in user mode: it waits for the `RKE` interrupt, and EC 3 sends the recall
and goes on. -/
def recalls : List (Fin 2 × Act 5 Unit Unit) :=
  [(0, .ctrlEc 3 true), (0, .ctrl), (0, .ctrl), (0, .ctrl), (1, .rke false), (0, .ctrl), (1, continue_), (1, continue_),
    (1, .input (.event (.lookup (some 4) false))), (1, continue_), (1, continue_), (1, .input (.reply ())), (1, continue_),
    (1, continue_)]

/-- What the hypercall was past, what was delivered, and the EC that is in user mode on the second CPU -/
def outcome (s : Recalls 5 2 (Bool × Bool) Unit) : List (Fin 5 × Nat) × Nat × Pc 5 × Fin 5 :=
  (s.passed, s.delivered 3, (s.system.machine.cpu 1).pc, s.system.machine.self 1)

theorem strong_recall_across : ∃ s, runs (fun a s => s.step twoCpus .exception hazards a.1 a.2)
    (start twoCpus .exception (some 2) (fun _ => 0) fun _ => (false, false)) (boots ++ recalls) = some s ∧
      (Synchronous hazards s ∧ Calls twoCpus .exception hazards s) ∧ s.outcome = ([(3, 0)], 1, .user, 3) := by
  have run : ∃ s, runs (fun a s => s.step twoCpus .exception hazards a.1 a.2)
      (start twoCpus .exception (some 2) (fun _ => 0) fun _ => (false, false)) (boots ++ recalls) = some s ∧
      Synchronous hazards s ∧ Calls twoCpus .exception hazards s := strong_recall (some 2) .exception _ (boots ++ recalls)
  obtain ⟨s, done, holds⟩ := run
  have final : (runs (fun a s => s.step twoCpus .exception hazards a.1 a.2)
      (start twoCpus .exception (some 2) (fun _ => 0) fun _ => (false, false)) (boots ++ recalls)).map outcome =
      some ([(3, 0)], 1, .user, 3) := by
    decide +kernel
  rw [done] at final
  exact ⟨s, done, holds, Option.some.inj final⟩

end Recalls

end Nova.Kernel.Contexts
