/-
# Nova.Kernel.Moves — what a step can do

`Move` lists the effects that a step of a CPU can have on a machine, with the guards under
which the code has them.  The steps that only lead from one place of the code to another
are in `Jump`.  `Cause` is what the state looks like when an assertion fails that neither
belongs to the partner graph nor to the places of the SCs.

`step_move` derives both once, from `Graph`; the invariants of the other modules go
through `Move` and never look at the operations again.
-/
import Nova.Kernel.Places

namespace Nova.Kernel.Contexts

open Nova.Theory.Chains
open Nova.Theory.Runs

set_option autoImplicit false

variable {n k : Nat}

/-- Where `activate` returns to -/
def After.pc : After → Pc n
  | .schedule => .schedule true
  | .loop t => .loop t

namespace Machine

/-- `Scheduler::unblock` after its assertions -/
def put (cfg : Config n k) (c : Fin k) (s : Nat) (m : Machine n k) : Machine n k :=
  if cfg.scCpu s = c then m.putReady cfg c s m.now else m.putRelease cfg s

/-- The first SC leaves the queue of an EC. -/
def takeQueue (e : Fin n) (s : Nat) (rest : List Nat) (m : Machine n k) : Machine n k :=
  (m.setEc e fun x => { x with queue := rest }).setSc s fun y => { y with queued := false }

/-- The first SC leaves the release queue. -/
def takeRelease (c : Fin k) (s : Nat) (rest : List Nat) (m : Machine n k) : Machine n k :=
  (m.setCpu c fun x => { x with release := rest }).setSc s fun y => { y with queued := false }

/-- The current SC is charged for the time it ran. -/
def charge (c : Fin k) (m : Machine n k) : Machine n k :=
  (m.setSc (m.cpu c).sc fun y => { y with used := y.used + (m.now - y.last), left := (m.cpu c).deadline - m.now }).setCpu c
    fun x => { x with armed := false, sched := false }

/-- The first SC of a ready queue becomes current. -/
def pick (cfg : Config n k) (c : Fin k) (t s : Nat) (rest : List Nat) (m : Machine n k) : Machine n k :=
  (m.setSc s fun y => { y with queued := false, last := t }).setCpu c fun x => { x with
    ready := Function.update x.ready x.prioTop rest
    prioTop := lowerTop (Function.update x.ready x.prioTop rest) x.prioTop
    sc := s
    armed := true
    deadline := t + (m.sc s).left
    pc := .activate (cfg.ec s) (.loop t) }

/-- `f` waits for its next caller or is dead, and its caller `a` continues at `h`. -/
def unlinked (c : Fin k) (a : Fin n) (f h : Option Cont) (m : Machine n k) : Machine n k :=
  ((m.setEc (m.self c) fun x => { x with cont := f, caller := none }).setEc a fun x => { x with
    cont := h, callee := none }).setCpu c fun x => { x with donations := decrement x.donations }

/-- What `kill` makes of the continuation of the caller -/
def aborted (h : Option Cont) : Cont :=
  if h = some (.retUser .hypercall) then .sysFinish .aborted false else .dead

/-- The current EC has no caller: its SC is given up. -/
def retire (c : Fin k) (f : Option Cont) (m : Machine n k) : Machine n k :=
  { m.setEc (m.self c) fun x => { x with cont := f } with retired := (m.cpu c).sc :: m.retired }.goto c (.schedule true)

/-- The caller runs if the SC was donated along the chain of partners, or else the EC of the SC. -/
def replied (cfg : Config n k) (c : Fin k) (a : Fin n) (f : Option Cont) (g : Cont) (m : Machine n k) : Machine n k :=
  if (m.cpu c).donations = 0 then (m.unlinked c a f (some g)).goto c (.activate (cfg.ec (m.cpu c).sc) .schedule)
  else (m.unlinked c a f (some g)).setCpu c fun x => { x with current := a, pc := .run g }

variable (cfg : Config n k) (m : Machine n k) (c : Fin k)

/-- `f` is the continuation with which the current EC replies, and `h` is the one of its caller. -/
inductive Replies (a : Fin n) : Option Cont → Option Cont → Prop
  | reply : (m.cpu c).pc = .user → cfg.Utcb (m.self c) → Replies a none (m.ec a).cont
  | kill : (m.cpu c).pc = .kill → Replies a (some .dead) (some (aborted (m.ec a).cont))

/-- The steps that lead to another place -/
inductive Jump : Pc n → Pc n → Prop
  | boot : Jump .boot (.schedule false)
  | halt : Jump .halt (.run .idle)
  | ret (r : Ret) : Jump (.run (.retUser r)) (.ret r)
  | recvKern : Jump (.run .recvKern) (.ret .hypercall)
  | recvUser : Jump (.run .recvUser) (.ret .hypercall)
  | sendMsg (x : Msg) : Jump (.run (.sendMsg x)) (.ipc (.msg x))
  | sysIpcCall : Jump (.run .sysIpcCall) (.ipc .call)
  | sysFinish (s : Status) : Jump (.run (.sysFinish s false)) (.finish s)
  | dead : Jump (.run .dead) .kill
  | idle : (m.cpu c).sched = false → Jump (.run .idle) .halt
  | busy : (m.cpu c).sched = true → Jump (.run .idle) (.hazard .idle)
  | finish (s : Status) : (s = .success → (m.ec (m.self c)).token = none) → Jump (.finish s) (.ret .hypercall)
  | user (r : Ret) : (m.cpu c).sched = false → Jump (.ret r) .user
  | divert (r : Ret) : Jump (.ret r) (.hazard (.user r))
  | pass (f : Func) : (m.cpu c).sched = false → Jump (.hazard f) (Func.pass f)
  | illegal (r : Ret) : Jump (.hazard (.user r)) .kill
  | recalled (r : Ret) (x : Msg) : Jump (.hazard (.user r)) (.ipc (.msg x))
  | yield_ (t : Fin n) : Jump (.help t) (.schedule false)
  | help (t : Fin n) : Jump (.help t) (.activate t .schedule)
  | refuse (s : Status) : s ≠ .success → Jump (.ipc .call) (.finish s)
  | undeliverable (x : Msg) : Jump (.ipc (.msg x)) .kill
  | woken (e : Fin n) (back : Back n) : (m.ec e).queue = [] → Jump (.wake e back) back.pc
  | requeued (t : Nat) (back : Back n) : (m.cpu c).release = [] → Jump (.requeue t back) back.pc
  | released (i : Nat) (timed : Bool) (episode : Nat) : (m.ec (m.self c)).blocked = false →
      Jump (.dnBlock i timed episode) (.finish .success)
  | ipcCall : cfg.Utcb (m.self c) → Jump .user (.ipc .call)
  | ctrlEc : Jump .user .pause
  | observed : Jump .pause (.finish .success)
  | other (s : Status) : Jump .user (.finish s)
  | raise (x : Msg) : Jump .user (.ipc (.msg x))
  | resolve (x : Msg) : Jump .user (.ret (.msg x))
  | fatal : Jump .user .kill
  | rrq {p : Pc n} {x : Msg} {back : Back n} : p.resume x = some back → Jump p (.requeue m.now back)
  | resume {p : Pc n} {x : Msg} {back : Back n} : p.resume x = some back → Jump p back.pc

/-- Where `Sm::up` is called: the hypercall and the interrupt handler -/
inductive Raises : Back n → Prop
  | hypercall : (m.cpu c).pc = .user → cfg.Utcb (m.self c) → Raises (.finish .success)
  | gsi {x : Msg} {back : Back n} : (m.cpu c).pc.resume x = some back → Raises back

/-- Where an SC is created: `sys_create_sc` and `create_root` -/
inductive Creates : Pc n → Prop
  | hypercall : (m.cpu c).pc = .user → Creates (.finish .success)
  | root : (m.cpu c).pc = .boot → Creates .boot

/-- The effects of a step of CPU `c` on `m` -/
inductive Move : Machine n k → Prop
  | stay : Move m
  | tick (d : Nat) : Move { m with now := m.now + d }
  | jump {p : Pc n} : Jump cfg m c (m.cpu c).pc p → Move (m.goto c p)
  | preempt {f : Func} : (m.cpu c).pc = .hazard f → Move (m.preempt c f)
  | help {i : Ipc} {t : Fin n} : (m.cpu c).pc = .ipc i → cfg.subtype t = .ecLocal → cfg.cpu (m.self c) = cfg.cpu t →
      (m.ec t).cont ≠ none → (m.ec t).cont ≠ some .dead →
      Move ((m.setEc (m.self c) fun x => { x with cont := some i.again }).goto c (.help t))
  | rendezvous {i : Ipc} {t : Fin n} : (m.cpu c).pc = .ipc i → cfg.subtype t = .ecLocal →
      cfg.cpu (m.self c) = cfg.cpu t → (m.ec t).cont = none →
      Move (((m.setEc (m.self c) fun x => { x with cont := some i.wait, callee := some t }).setEc t fun x => { x with
        cont := some i.recv, caller := some (m.self c) }).setCpu c fun x => { x with
          donations := unsigned (x.donations + 1), current := t, pc := .run i.recv })
  | enter {e f : Fin n} {a : After} {d : Nat} {g : Cont} : (m.cpu c).pc = .activate e a →
      follow (fun x => (m.ec x).callee) n e = some (f, d) → (m.ec f).cont = some g → g ≠ .blocking →
      Move (m.setCpu c fun x => { x with donations := unsigned d, entry := e, current := f, pc := .run g })
  | look {e f : Fin n} {a : After} {d : Nat} : (m.cpu c).pc = .activate e a →
      follow (fun x => (m.ec x).callee) n e = some (f, d) → (m.ec f).blocked = true →
      Move (m.setCpu c fun x => { x with donations := unsigned d, entry := e, pc := .blockSc f a (m.ec f).blocks })
  | unblocked {e : Fin n} {a : After} {i : Nat} {g : Cont} : (m.cpu c).pc = .blockSc e a i →
      (m.ec e).cont = some g → g ≠ .blocking → Move (m.setCpu c fun x => { x with current := e, pc := .run g })
  | wait {e : Fin n} {a : After} {i : Nat} : (m.cpu c).pc = .blockSc e a i → (m.ec e).blocked = true →
      Move ((m.putQueue e (m.cpu c).sc).after c a)
  | retire {f : Option Cont} : (m.cpu c).pc = .user ∧ f = none ∨ (m.cpu c).pc = .kill ∧ f = some .dead →
      (m.ec (m.self c)).caller = none → Move (m.retire c f)
  | donated {a : Fin n} {f : Option Cont} {g : Cont} : Replies cfg m c a f (some g) →
      (m.ec (m.self c)).caller = some a → (m.ec a).callee = some (m.self c) → (m.cpu c).donations ≠ 0 →
      Move ((m.unlinked c a f (some g)).setCpu c fun x => { x with current := a, pc := .run g })
  | helped {a : Fin n} {f h : Option Cont} : Replies cfg m c a f h → (m.ec (m.self c)).caller = some a →
      (m.ec a).callee = some (m.self c) → (m.cpu c).donations = 0 →
      Move ((m.unlinked c a f h).goto c (.activate (cfg.ec (m.cpu c).sc) .schedule))
  | finish {i : Nat} : (m.cpu c).pc = .finish .success → (m.ec (m.self c)).token = some i →
      Move (((m.setSm i fun x => { x with finished := x.finished + 1 }).setEc (m.self c) fun x => { x with
        token := none }).goto c (.ret .hypercall))
  | cancel {s : Status} : (m.cpu c).pc = .run (.sysFinish s true) →
      Move ((m.setEc (m.self c) fun x => { x with timeout := none }).goto c (.finish s))
  | block : (m.cpu c).pc = .schedule true → Move ((m.charge c).goto c (.loop m.now))
  | yield_ : (m.cpu c).pc = .schedule false → (m.sc (m.cpu c).sc).queued = false → cfg.scCpu (m.cpu c).sc = c →
      Move (((m.charge c).putReady cfg c (m.cpu c).sc m.now).goto c (.loop m.now))
  | dispatch {t s : Nat} {rest : List Nat} : (m.cpu c).pc = .loop t → (m.cpu c).ready (m.cpu c).prioTop = s :: rest →
      (m.cpu c).armed = false → cfg.scCpu s = c → Move (m.pick cfg c t s rest)
  | wake {e : Fin n} {back : Back n} {s : Nat} {rest : List Nat} : (m.cpu c).pc = .wake e back →
      (m.ec e).queue = s :: rest → Move ((m.takeQueue e s rest).put cfg c s)
  | requeue {t : Nat} {back : Back n} {s : Nat} {rest : List Nat} : (m.cpu c).pc = .requeue t back →
      (m.cpu c).release = s :: rest → cfg.scCpu s = c → Move ((m.takeRelease c s rest).putReady cfg c s t)
  | create {s : Nat} {p : Pc n} : Creates m c p → s ∉ m.created → cfg.subtype (cfg.ec s) ≠ .ecLocal →
      Move (({ m with created := s :: m.created }.put cfg c s).goto c p)
  | take {i : Nat} {zero : Bool} : (m.cpu c).pc = .user → (m.sm i).counter ≠ 0 →
      Move (((m.setSm i fun s => { s with
        counter := if zero then 0 else s.counter - 1
        discarded := s.discarded + if zero then s.counter - 1 else 0 }).setEc (m.self c) fun x => { x with
          token := some i }).goto c (.finish .success))
  | suspend {i : Nat} {timed : Bool} : (m.cpu c).pc = .user → cfg.Utcb (m.self c) → (m.sm i).counter = 0 →
      Move (((m.setSm i fun s => { s with queue := s.queue ++ [m.self c], arrivals := s.arrivals + 1 }).setEc (m.self c)
        fun x => { x with cont := some .blocking, queued := true, blocks := x.blocks + 1, ticket := (m.sm i).arrivals }).goto c
          (.dnBlock i timed ((m.ec (m.self c)).blocks + 1)))
  | sleep {i : Nat} {timed : Bool} {episode : Nat} : (m.cpu c).pc = .dnBlock i timed episode →
      (m.ec (m.self c)).blocked = true → (timed = true → (m.ec (m.self c)).timeout = none) →
      Move (((m.putQueue (m.self c) (m.cpu c).sc).setEc (m.self c) fun x =>
        if timed then { x with timeout := some i, armed := x.blocks } else x).goto c (.schedule true))
  | count {i : Nat} {back : Back n} : Raises cfg m c back → (m.sm i).queue = [] → (m.sm i).counter ≠ 2 ^ 64 - 1 →
      Move ((m.setSm i fun s => { s with counter := s.counter + 1, ups := s.ups + 1 }).goto c back.pc)
  | release {i : Nat} {back : Back n} {e : Fin n} {rest : List (Fin n)} : Raises cfg m c back →
      (m.sm i).queue = e :: rest →
      Move (((m.setSm i fun s => { s with queue := rest, ups := s.ups + 1 }).setEc e fun x => { x with
        cont := some (.sysFinish .success true), queued := false, unblocks := x.unblocks + 1, token := some i }).goto c
          (.wake e back))
  | stale {x : Msg} {back : Back n} {e : Fin n} {i : Nat} : (m.cpu c).pc.resume x = some back →
      (m.ec e).timeout = some i → cfg.cpu e = c → (m.ec e).blocked = false →
      Move ((m.setEc e fun x => { x with timeout := none }).goto c back.pc)
  | timeout {x : Msg} {back : Back n} {e : Fin n} {i : Nat} : (m.cpu c).pc.resume x = some back →
      (m.ec e).timeout = some i → cfg.cpu e = c → (m.ec e).blocked = true → e ∈ (m.sm i).queue →
      Move (((m.setSm i fun s => { s with queue := s.queue.erase e }).setEc e fun x => { x with
        timeout := none, cont := some (.sysFinish .timeout false), queued := false, unblocks := x.unblocks + 1 }).goto c
          (.wake e back))
  | sched {x : Msg} {back : Back n} {armed : Bool} : (m.cpu c).pc.resume x = some back →
      (armed = true → (m.cpu c).armed = true) → Move (m.setCpu c fun y => { y with armed := armed, sched := true, pc := back.pc })

/-- The assertions about timeouts and the ready queue -/
def Cause : Fault → Prop
  | .ready => ∃ t, (m.cpu c).pc = .loop t ∧ (m.cpu c).ready (m.cpu c).prioTop = []
  | .timeout => (∃ t, (m.cpu c).pc = .loop t ∧ (m.cpu c).armed = true) ∨
      ∃ i episode, (m.cpu c).pc = .dnBlock i true episode ∧ (m.ec (m.self c)).timeout ≠ none
  | .dequeue => ∃ e i, (m.ec e).timeout = some i ∧ (m.ec e).blocked = true ∧ e ∉ (m.sm i).queue
  | _ => True

variable {cfg m c}

theorem Replies.pc {a : Fin n} {f h : Option Cont} (replies : Replies cfg m c a f h) :
    (m.cpu c).pc = .user ∨ (m.cpu c).pc = .kill := by
  cases replies with
  | reply pc utcb => exact Or.inl pc
  | kill pc => exact Or.inr pc

/-! ## The operations -/

theorem setEc_setEc (e : Fin n) (f g : Ec n → Ec n) : (m.setEc e f).setEc e g = m.setEc e fun x => g (f x) := by
  simp only [setEc, Function.update_self, Function.update_idem]

/-- What the change of an EC keeps -/
theorem field_setEc {α : Type} (field : Ec n → α) {e : Fin n} {f : Ec n → Ec n} (same : field (f (m.ec e)) = field (m.ec e))
    (x : Fin n) : field ((m.setEc e f).ec x) = field (m.ec x) := by
  rw [setEc_ec]
  split
  · rename_i here
    rw [here]
    exact same
  · rfl

/-- What the change of a CPU keeps -/
theorem field_setCpu {α : Type} (field : Cpu n → α) {f : Cpu n → Cpu n} (same : field (f (m.cpu c)) = field (m.cpu c))
    (x : Fin k) : field ((m.setCpu c f).cpu x) = field (m.cpu x) := by
  rw [setCpu_cpu]
  split
  · rename_i here
    rw [here]
    exact same
  · rfl

/-- What the change of an SC keeps -/
theorem field_setSc {α : Type} (field : Sc → α) {s : Nat} {f : Sc → Sc} (same : field (f (m.sc s)) = field (m.sc s))
    (x : Nat) : field ((m.setSc s f).sc x) = field (m.sc x) := by
  rw [setSc_sc]
  split
  · rename_i here
    rw [here]
    exact same
  · rfl

theorem setEc_comm {e f : Fin n} (ne : e ≠ f) (g h : Ec n → Ec n) :
    (m.setEc e g).setEc f h = (m.setEc f h).setEc e g := by
  simp only [setEc, Function.update_of_ne ne, Function.update_of_ne ne.symm, Function.update_comm ne]

theorem setCpu_setCpu (f g : Cpu n → Cpu n) : (m.setCpu c f).setCpu c g = m.setCpu c fun x => g (f x) := by
  simp only [setCpu, Function.update_self, Function.update_idem]

theorem setCpu_setEc (e : Fin n) (f : Cpu n → Cpu n) (g : Ec n → Ec n) :
    (m.setCpu c f).setEc e g = (m.setEc e g).setCpu c f := rfl

theorem setSm_setEc (e : Fin n) (i : Nat) (f : Sm n → Sm n) (g : Ec n → Ec n) :
    (m.setEc e g).setSm i f = (m.setSm i f).setEc e g := rfl

theorem setCpu_comm {c c' : Fin k} (ne : c ≠ c') (f g : Cpu n → Cpu n) :
    (m.setCpu c f).setCpu c' g = (m.setCpu c' g).setCpu c f := by
  simp only [setCpu, Function.update_of_ne ne, Function.update_of_ne ne.symm, Function.update_comm ne]

theorem goto_eq_self {p : Pc n} (here : (m.cpu c).pc = p) : m.goto c p = m := by
  subst here
  unfold goto setCpu
  rw [Function.update_eq_self]

section Fields

variable (m : Machine n k) (c x : Fin k) (e : Fin n) (s t : Nat) (rest : List Nat)

@[simp] theorem putReady_ec : (m.putReady cfg c s t).ec = m.ec := rfl
@[simp] theorem putReady_sm : (m.putReady cfg c s t).sm = m.sm := rfl
@[simp] theorem putRelease_ec : (m.putRelease cfg s).ec = m.ec := rfl
@[simp] theorem putRelease_sm : (m.putRelease cfg s).sm = m.sm := rfl
@[simp] theorem charge_ec : (m.charge c).ec = m.ec := rfl
@[simp] theorem charge_sm : (m.charge c).sm = m.sm := rfl
@[simp] theorem pick_ec : (m.pick cfg c t s rest).ec = m.ec := rfl
@[simp] theorem pick_sm : (m.pick cfg c t s rest).sm = m.sm := rfl
@[simp] theorem takeQueue_sm : (m.takeQueue e s rest).sm = m.sm := rfl
@[simp] theorem takeQueue_cpu : (m.takeQueue e s rest).cpu = m.cpu := rfl
@[simp] theorem takeRelease_ec : (m.takeRelease c s rest).ec = m.ec := rfl
@[simp] theorem takeRelease_sm : (m.takeRelease c s rest).sm = m.sm := rfl
@[simp] theorem putQueue_sm : (m.putQueue e s).sm = m.sm := rfl
@[simp] theorem putQueue_cpu : (m.putQueue e s).cpu = m.cpu := rfl

@[simp] theorem retire_ec (f : Option Cont) : (m.retire c f).ec = (m.setEc (m.self c) fun x => { x with cont := f }).ec := rfl
@[simp] theorem retire_cpu (f : Option Cont) : (m.retire c f).cpu = (m.goto c (.schedule true)).cpu := rfl
@[simp] theorem retire_sc (f : Option Cont) : (m.retire c f).sc = m.sc := rfl
@[simp] theorem retire_sm (f : Option Cont) : (m.retire c f).sm = m.sm := rfl

@[simp] theorem putQueue_self : (m.putQueue e s).self x = m.self x := rfl
@[simp] theorem takeQueue_self : (m.takeQueue e s rest).self x = m.self x := rfl

@[simp] theorem put_ec : (m.put cfg c s).ec = m.ec := by
  unfold put
  split <;> rfl

@[simp] theorem put_sm : (m.put cfg c s).sm = m.sm := by
  unfold put
  split <;> rfl

@[simp] theorem putReady_self : (m.putReady cfg c s t).self x = m.self x := by
  by_cases same : x = c
  · subst same
    simp [putReady, self]
  · simp [putReady, self, same]

@[simp] theorem putRelease_self : (m.putRelease cfg s).self x = m.self x := by
  by_cases same : x = cfg.scCpu s
  · subst same
    simp [putRelease, self]
  · simp [putRelease, self, same]

@[simp] theorem put_self : (m.put cfg c s).self x = m.self x := by
  unfold put
  split
  · exact putReady_self ..
  · exact putRelease_self ..

@[simp] theorem charge_self : (m.charge c).self x = m.self x := by
  by_cases same : x = c
  · subst same
    simp [charge, self]
  · simp [charge, self, same]

@[simp] theorem charge_pc : ((m.charge c).cpu x).pc = (m.cpu x).pc := by
  by_cases same : x = c
  · subst same
    simp [charge]
  · simp [charge, same]

@[simp] theorem takeRelease_self : (m.takeRelease c s rest).self x = m.self x := by
  by_cases same : x = c
  · subst same
    simp [takeRelease, self]
  · simp [takeRelease, self, same]

@[simp] theorem takeRelease_pc : ((m.takeRelease c s rest).cpu x).pc = (m.cpu x).pc := by
  by_cases same : x = c
  · subst same
    simp [takeRelease]
  · simp [takeRelease, same]

@[simp] theorem pick_self : (m.pick cfg c t s rest).self x = m.self x := by
  by_cases same : x = c
  · subst same
    simp [pick, self]
  · simp [pick, self, same]

@[simp] theorem pick_pc : ((m.pick cfg c t s rest).cpu x).pc =
    if x = c then .activate (cfg.ec s) (.loop t) else (m.cpu x).pc := by
  rw [pick, setCpu_cpu]
  split <;> rfl

theorem goto_pc (p : Pc n) : ((m.goto c p).cpu x).pc = if x = c then p else (m.cpu x).pc := by
  rw [goto_cpu]
  split <;> rfl

@[simp] theorem putQueue_cont (y : Fin n) : ((m.putQueue e s).ec y).cont = (m.ec y).cont := by
  rw [putQueue, setSc_ec, field_setEc Ec.cont (by rfl)]

variable (a : After)

@[simp] theorem after_ec : (m.after c a).ec = m.ec := by cases a <;> rfl
@[simp] theorem after_sm : (m.after c a).sm = m.sm := by cases a <;> rfl

@[simp] theorem after_pc : ((m.after c a).cpu x).pc = if x = c then After.pc a else (m.cpu x).pc := by
  cases a with
  | schedule => exact goto_pc ..
  | loop t =>
      rw [after, setCpu_cpu]
      split <;> rfl

@[simp] theorem after_self : (m.after c a).self x = m.self x := by
  cases a with
  | schedule => exact goto_self ..
  | loop t =>
      simp only [after, self, setCpu_cpu]
      split
      · rename_i here
        rw [here]
      · rfl

end Fields

@[simp] theorem pc_put (m : Machine n k) (c x : Fin k) (s : Nat) : ((m.put cfg c s).cpu x).pc = (m.cpu x).pc := by
  unfold put
  split
  · exact pc_putReady ..
  · exact pc_putRelease ..

theorem goto_setSc (p : Pc n) (s : Nat) (f : Sc → Sc) : (m.setSc s f).goto c p = (m.goto c p).setSc s f := rfl

theorem goto_put (p : Pc n) (s : Nat) : (m.put cfg c s).goto c p = (m.goto c p).put cfg c s := by
  unfold put
  split
  · rw [putReady, putReady, goto_setSc, goto, goto, setCpu_setCpu, setCpu_setCpu]
    rfl
  · rename_i away
    rw [putRelease, putRelease, goto_setSc, goto, goto, setCpu_comm away]

theorem put_of_unblock {s : Nat} {m' : Machine n k} (done : m.unblock cfg c s = .ok m') : m' = m.put cfg c s := by
  unfold unblock readyEnqueue releaseEnqueue at done
  unfold put
  split at done
  · rename_i home
    rw [if_neg (not_not.mpr home)] at done
    rw [if_pos home]
    split at done
    · cases done
    · exact (Except.ok.inj done).symm
  · rename_i away
    rw [if_neg away]
    split at done
    · cases done
    · exact (Except.ok.inj done).symm

theorem ready_of_readyEnqueue {s t : Nat} {m' : Machine n k} (done : m.readyEnqueue cfg c s t = .ok m') :
    m' = m.putReady cfg c s t ∧ cfg.scCpu s = c ∧ (m.sc s).queued = false := by
  unfold readyEnqueue at done
  split at done
  · cases done
  · rename_i home
    split at done
    · cases done
    · rename_i free
      exact ⟨(Except.ok.inj done).symm, not_not.mp home, Bool.eq_false_iff.mpr free⟩

theorem cause_of_readyEnqueue {m' : Machine n k} {s t : Nat} {f : Fault} (failed : m'.readyEnqueue cfg c s t = .error f) :
    Cause m c f := by
  unfold readyEnqueue at failed
  split at failed
  · cases failed
    trivial
  · split at failed
    · cases failed
      trivial
    · cases failed

theorem cause_of_unblock {m' : Machine n k} {s : Nat} {f : Fault} (failed : m'.unblock cfg c s = .error f) :
    Cause m c f := by
  unfold unblock at failed
  split at failed
  · exact cause_of_readyEnqueue failed
  · unfold releaseEnqueue at failed
    split at failed
    · cases failed
      trivial
    · cases failed

theorem queue_of_enqueueSc {e : Fin n} {m' : Machine n k} (done : m.enqueueSc c e = .ok m') :
    m' = m.putQueue e (m.cpu c).sc := by
  unfold enqueueSc at done
  split at done
  · cases done
  · exact (Except.ok.inj done).symm

/-- The steps of `c` on `m` -/
abbrev Moves (cfg : Config n k) (m : Machine n k) (c : Fin k) (r : Result n k) : Prop :=
  Meets (Cause m c) (Move cfg m c) r

theorem moves_jump {p q : Pc n} (pc : (m.cpu c).pc = p) (jump : Jump cfg m c p q) : Moves cfg m c (.ok (m.goto c q)) := by
  subst pc
  exact Move.jump jump

theorem moves_rendezvous {i : Ipc} {t : Fin n} (pc : (m.cpu c).pc = .ipc i) (isLocal : cfg.subtype t = .ecLocal)
    (home : cfg.cpu (m.self c) = cfg.cpu t) (waits : (m.ec t).cont = none) :
    Moves cfg m c (m.rendezvous c i t) := by
  have move := Move.rendezvous pc isLocal home waits
  unfold rendezvous setPartner
  dsimp only
  rw [setEc_setEc, setCpu_setEc, setEc_setEc, makeCurrent_eq (f := i.recv) (by simp), setCpu_setCpu]
  exact move

theorem moves_activate {e : Fin n} {a : After} (pc : (m.cpu c).pc = .activate e a) : Moves cfg m c (m.activate c e a) := by
  unfold activate
  split
  · trivial
  · rename_i f d reached
    dsimp only
    split
    · rename_i blocked
      rw [goto, setCpu_setCpu]
      exact Move.look pc reached blocked
    · rename_i notBlocked
      cases cont : (m.ec f).cont with
      | none => exact absurd (by simp [Ec.blocked, cont]) notBlocked
      | some g =>
          have runs : g ≠ .blocking := by
            rintro rfl
            exact notBlocked (by simp [Ec.blocked, cont])
          rw [makeCurrent_eq (f := g) (by simpa using cont), setCpu_setCpu]
          exact Move.enter pc reached cont runs

/-- The caller and the current EC are partners. -/
theorem partners (graph : Graph cfg m.view) {a : Fin n} (caller : (m.ec (m.self c)).caller = some a) :
    (m.ec a).callee = some (m.self c) ∧ m.self c ≠ a := by
  have callee : (m.ec a).callee = some (m.self c) := (graph.inverse a (m.self c)).mpr caller
  refine ⟨callee, fun same => ?_⟩
  have last : (m.ec (m.self c)).callee = none := graph.last c
  rw [same, callee] at last
  cases last

/-- `reply` to the caller `a`, whose continuation is `g` by now -/
theorem reply_eq (graph : Graph cfg m.view) {a : Fin n} (caller : (m.ec (m.self c)).caller = some a) (f : Option Cont)
    (g : Cont) : (m.setEc a fun x => { x with cont := some g }).reply cfg c f = .ok (m.replied cfg c a f g) := by
  obtain ⟨callee, ne⟩ := partners graph caller
  have isLocal : cfg.subtype (m.self c) = .ecLocal := (graph.callee a _ callee).1
  unfold reply
  dsimp only
  rw [show (m.setEc a _).self c = m.self c from rfl]
  rw [show (((m.setEc a _).setEc (m.self c) _).ec (m.self c)).caller = some a by simpa [ne] using caller]
  dsimp only
  rw [if_neg (not_not.mpr isLocal), clrPartner]
  rw [show (((m.setEc a _).setEc (m.self c) _).ec a).callee = some (m.self c) by simpa [ne.symm] using callee]
  dsimp only
  generalize cleared : ((((m.setEc a _).setEc (m.self c) _).setEc (m.self c) _).setEc a _).setCpu c _ = m'
  have same : m' = m.unlinked c a f (some g) := by
    rw [← cleared, setEc_setEc, setEc_comm ne.symm, setEc_setEc]
    rfl
  rw [same, show (((m.setEc a _).setEc (m.self c) _).cpu c) = m.cpu c from rfl, replied]
  by_cases zero : (m.cpu c).donations = 0
  · rw [decide_eq_false (not_not.mpr zero), if_pos zero]
    have sc : ((m.unlinked c a f (some g)).cpu c).sc = (m.cpu c).sc := by simp [unlinked]
    show Except.ok (goto c (.activate (cfg.ec ((m.unlinked c a f (some g)).cpu c).sc) .schedule) _) = _
    rw [sc]
  · rw [decide_eq_true zero, if_neg zero]
    show makeCurrent c a _ = _
    rw [makeCurrent_eq (f := g) (by simp [unlinked])]

theorem kill_eq (graph : Graph cfg m.view) {a : Fin n} (caller : (m.ec (m.self c)).caller = some a) :
    m.kill cfg c = .ok (m.replied cfg c a (some .dead) (aborted (m.ec a).cont)) := by
  unfold kill
  rw [caller]
  exact reply_eq graph caller (some .dead) _

theorem sysIpcReply_eq (graph : Graph cfg m.view) {a : Fin n} {g : Cont} (caller : (m.ec (m.self c)).caller = some a)
    (cont : (m.ec a).cont = some g) : m.sysIpcReply cfg c = .ok (m.replied cfg c a none g) := by
  obtain ⟨callee, -⟩ := partners graph caller
  obtain ⟨-, -, r, waits⟩ := graph.callee a _ callee
  have is : g = .retUser r := Option.some.inj (cont.symm.trans waits)
  subst is
  have same : (m.setEc a fun x => { x with cont := some (.retUser r) }) = m := by
    apply setEc_eq_self
    rw [← cont]
  have result := reply_eq graph caller none (.retUser r)
  rw [same] at result
  unfold sysIpcReply
  rw [caller]
  dsimp only
  rw [cont]
  exact result

theorem moves_replied {a : Fin n} {f : Option Cont} {g : Cont} (graph : Graph cfg m.view)
    (replies : Replies cfg m c a f (some g)) (caller : (m.ec (m.self c)).caller = some a) :
    Move cfg m c (m.replied cfg c a f g) := by
  obtain ⟨callee, -⟩ := partners graph caller
  unfold replied
  split
  · rename_i zero
    exact Move.helped replies caller callee zero
  · rename_i nonzero
    exact Move.donated replies caller callee nonzero

/-- `reply` without a caller -/
theorem reply_alone (caller : (m.ec (m.self c)).caller = none) (f : Option Cont) :
    m.reply cfg c f = .ok (m.retire c f) := by
  unfold reply
  dsimp only
  rw [show ((m.setEc (m.self c) _).ec (m.self c)).caller = none by simpa using caller]
  rfl

theorem moves_kill (graph : Graph cfg m.view) (pc : (m.cpu c).pc = .kill) : Moves cfg m c (m.kill cfg c) := by
  cases caller : (m.ec (m.self c)).caller with
  | none =>
      unfold kill
      rw [caller]
      dsimp only
      rw [reply_alone caller]
      exact Move.retire (Or.inr ⟨pc, rfl⟩) caller
  | some a =>
      rw [kill_eq graph caller]
      exact moves_replied graph (.kill pc) caller

theorem moves_sysIpcReply (graph : Graph cfg m.view) (pc : (m.cpu c).pc = .user) (utcb : cfg.Utcb (m.self c)) :
    Moves cfg m c (m.sysIpcReply cfg c) := by
  cases caller : (m.ec (m.self c)).caller with
  | none =>
      unfold sysIpcReply
      rw [caller]
      dsimp only
      rw [reply_alone caller]
      exact Move.retire (Or.inl ⟨pc, rfl⟩) caller
  | some a =>
      obtain ⟨-, -, r, waits⟩ := graph.callee a _ (partners graph caller).1
      have cont : (m.ec a).cont = some (.retUser r) := waits
      have replies : Replies cfg m c a none (m.ec a).cont := .reply pc utcb
      rw [cont] at replies
      rw [sysIpcReply_eq graph caller cont]
      exact moves_replied graph replies caller

theorem moves_refuse {i : Ipc} (pc : (m.cpu c).pc = .ipc i) {s : Status} (failed : s ≠ .success) :
    Moves cfg m c (.ok (m.refuse c i s)) := by
  cases i with
  | call => exact moves_jump pc (.refuse s failed)
  | msg x => exact moves_jump pc (.undeliverable x)

theorem moves_ipc {i : Ipc} (pc : (m.cpu c).pc = .ipc i) (pt : Option (Fin n)) (noWait : Bool) :
    Moves cfg m c (m.ipc cfg c i pt noWait) := by
  unfold ipc
  split
  · exact moves_refuse pc nofun
  · rename_i t
    split
    · exact moves_refuse pc nofun
    · rename_i isLocal
      split
      · exact moves_refuse pc nofun
      · rename_i home
        split
        · rename_i waits
          exact moves_rendezvous pc (not_not.mp isLocal) (not_not.mp home) waits
        · rename_i busy
          split
          · rename_i call
            obtain ⟨rfl, -⟩ := call
            exact moves_jump pc (.refuse .timeout nofun)
          · split
            · exact moves_refuse pc nofun
            · rename_i alive
              exact Move.help pc (not_not.mp isLocal) (not_not.mp home) busy alive

theorem moves_recv {f : Cont} (pc : (m.cpu c).pc = .run f) (jump : Jump cfg m c (.run f) (.ret .hypercall)) :
    Moves cfg m c (m.recv cfg c f) := by
  unfold recv
  dsimp only
  split
  · trivial
  · split
    · split
      · exact moves_jump pc jump
      · split
        · exact moves_jump pc jump
        · trivial
      · trivial
    · trivial

theorem moves_finish {s : Status} (pc : (m.cpu c).pc = .finish s) : Moves cfg m c (.ok (m.finish c s)) := by
  unfold finish
  dsimp only
  cases token : (m.ec (m.self c)).token with
  | none => exact moves_jump pc (.finish s fun _ => token)
  | some i =>
      by_cases ok : s = .success
      · subst ok
        exact Move.finish pc token
      · have jump : Moves cfg m c _ := moves_jump pc (.finish s fun is => absurd is ok)
        cases s <;> first | exact absurd rfl ok | exact jump

theorem moves_start {f : Cont} (pc : (m.cpu c).pc = .run f) (runs : f ≠ .blocking) : Moves cfg m c (m.start cfg c f) := by
  cases f with
  | retUser r => exact moves_jump pc (.ret r)
  | recvKern => exact moves_recv pc .recvKern
  | recvUser => exact moves_recv pc .recvUser
  | sendMsg x => exact moves_jump pc (.sendMsg x)
  | sysIpcCall => exact moves_jump pc .sysIpcCall
  | sysFinish s clr =>
      cases clr with
      | true => exact Move.cancel pc
      | false => exact moves_jump pc (.sysFinish s)
  | dead => exact moves_jump pc .dead
  | blocking => exact absurd rfl runs
  | idle =>
      refine moves_jump pc ?_
      split
      · rename_i busy
        exact .busy busy
      · rename_i idle
        exact .idle (Bool.eq_false_iff.mpr idle)

theorem moves_schedule {b : Bool} (pc : (m.cpu c).pc = .schedule b) : Moves cfg m c (m.schedule cfg c b) := by
  unfold schedule
  dsimp only
  split
  · trivial
  · cases b with
    | true => exact Move.block pc
    | false =>
        rename_i free
        rw [if_neg nofun]
        cases done : readyEnqueue cfg c (m.cpu c).sc m.now _ with
        | error f => exact cause_of_readyEnqueue done
        | ok m' =>
            obtain ⟨rfl, home, -⟩ := ready_of_readyEnqueue done
            exact Move.yield_ pc (by simpa using free) home

theorem moves_dispatch {t : Nat} (pc : (m.cpu c).pc = .loop t) : Moves cfg m c (m.dispatch cfg c t) := by
  unfold dispatch
  dsimp only
  split
  · rename_i empty
    exact ⟨t, pc, empty⟩
  · rename_i s rest head
    split
    · trivial
    · rename_i home
      split
      · rename_i armed
        exact Or.inl ⟨t, pc, armed⟩
      · rename_i free
        exact Move.dispatch pc head (Bool.eq_false_iff.mpr free) (not_not.mp home)

theorem moves_blockSc {e : Fin n} {a : After} {i : Nat} (pc : (m.cpu c).pc = .blockSc e a i) :
    Moves cfg m c (m.blockSc c e a) := by
  unfold blockSc
  split
  · rename_i blocked
    unfold enqueueSc
    split
    · trivial
    · exact Move.wait pc blocked
  · rename_i notBlocked
    cases cont : (m.ec e).cont with
    | none => exact absurd (by simp [Ec.blocked, cont]) notBlocked
    | some g =>
        have runs : g ≠ .blocking := by
          rintro rfl
          exact notBlocked (by simp [Ec.blocked, cont])
        rw [makeCurrent_eq cont]
        exact Move.unblocked pc cont runs

theorem moves_wake {e : Fin n} {back : Back n} (pc : (m.cpu c).pc = .wake e back) : Moves cfg m c (m.wake cfg c e back) := by
  unfold wake
  split
  · rename_i empty
    exact moves_jump pc (.woken e back empty)
  · rename_i s rest head
    cases done : unblock cfg c s _ with
    | error f => exact cause_of_unblock done
    | ok m' =>
        rw [put_of_unblock done]
        exact Move.wake pc head

theorem moves_requeue {t : Nat} {back : Back n} (pc : (m.cpu c).pc = .requeue t back) :
    Moves cfg m c (m.requeue cfg c t back) := by
  unfold requeue
  split
  · rename_i empty
    exact moves_jump pc (.requeued t back empty)
  · rename_i s rest head
    cases done : readyEnqueue cfg c s t _ with
    | error f => exact cause_of_readyEnqueue done
    | ok m' =>
        obtain ⟨rfl, home, -⟩ := ready_of_readyEnqueue done
        exact Move.requeue pc head home

theorem moves_create {s : Nat} {p : Pc n} (creates : Creates m c p) (new : s ∉ m.created)
    (bound : cfg.subtype (cfg.ec s) ≠ .ecLocal) :
    Moves cfg m c (({ m with created := s :: m.created }.unblock cfg c s).map (goto c p)) := by
  cases done : unblock cfg c s { m with created := s :: m.created } with
  | error f => exact cause_of_unblock done
  | ok m' =>
      rw [put_of_unblock done]
      exact Move.create creates new bound

theorem moves_sysCreateSc (pc : (m.cpu c).pc = .user) (s : Nat) : Moves cfg m c (m.sysCreateSc cfg c s) := by
  unfold sysCreateSc
  split
  · exact Move.stay
  · rename_i new
    split
    · exact moves_jump pc (.other _)
    · split
      · exact moves_jump pc (.other _)
      · rename_i bound
        exact moves_create (.hypercall pc) new bound

theorem moves_createRoot (pc : (m.cpu c).pc = .boot) (s : Nat) : Moves cfg m c (m.createRoot cfg c s) := by
  unfold createRoot
  split
  · exact Move.stay
  · rename_i allowed
    obtain ⟨new, -, bound, -⟩ := by simpa only [not_or] using allowed
    have created := moves_create (.root pc) new bound
    cases done : unblock cfg c s { m with created := s :: m.created } with
    | error f => exact cause_of_unblock done
    | ok m' =>
        rw [done] at created
        have same : m'.goto c .boot = m' := by
          refine goto_eq_self ?_
          rw [put_of_unblock done, pc_put]
          exact pc
        rw [← same]
        exact created

theorem moves_dn (pc : (m.cpu c).pc = .user) (utcb : cfg.Utcb (m.self c)) (i : Nat) (zero timed : Bool) :
    Moves cfg m c (m.dn c i zero timed) := by
  unfold dn
  dsimp only
  split
  · rename_i positive
    exact Move.take pc positive
  · rename_i empty
    split
    · trivial
    · exact Move.suspend pc utcb (not_not.mp empty)

theorem moves_dnBlock {i : Nat} {timed : Bool} {episode : Nat} (pc : (m.cpu c).pc = .dnBlock i timed episode) :
    Moves cfg m c (m.dnBlock c i timed) := by
  unfold dnBlock
  dsimp only
  split
  · rename_i blocked
    cases done : m.enqueueSc c (m.self c) with
    | error f =>
        unfold enqueueSc at done
        split at done
        · cases done
          trivial
        · cases done
    | ok m' =>
        obtain rfl := queue_of_enqueueSc done
        dsimp only
        cases timed with
        | false =>
            have same : ((m.putQueue (m.self c) (m.cpu c).sc).setEc (m.self c) fun x => x) = _ := setEc_eq_self rfl
            have moved : Move cfg m c (((m.putQueue _ _).setEc _ fun x => x).goto c _) := Move.sleep pc blocked nofun
            rw [same] at moved
            exact moved
        | true =>
            rw [if_pos rfl]
            split
            · rename_i set
              exact Or.inr ⟨i, episode, pc, by simpa [putQueue] using set⟩
            · rename_i free
              exact Move.sleep pc blocked fun _ => by simpa [putQueue] using free
  · rename_i released
    exact moves_jump pc (.released i timed episode (Bool.eq_false_iff.mpr released))

/-- `fail` is where `up` goes on if the counter is at its limit. -/
theorem moves_up (i : Nat) {fail back : Back n} (raises : Raises cfg m c back) (fails : Jump cfg m c (m.cpu c).pc fail.pc) :
    Moves cfg m c (.ok (m.up c i fail back)) := by
  unfold up
  split
  · rename_i empty
    split
    · exact Move.jump fails
    · rename_i below
      exact Move.count raises empty below
  · rename_i e rest head
    exact Move.release raises head

theorem moves_timeout {e : Fin n} {back : Back n} {x : Msg} (enabled : (m.cpu c).pc.resume x = some back) :
    Moves cfg m c (m.timeout cfg c e back) := by
  unfold timeout
  split
  · exact Move.stay
  · rename_i i armed
    split
    · exact Move.stay
    · rename_i home
      have same : ((m.setEc e fun x => { x with timeout := none }).ec e).blocked = (m.ec e).blocked := by simp [Ec.blocked]
      dsimp only
      rw [same]
      split
      · rename_i awake
        exact Move.stale enabled armed (not_not.mp home) (by simpa using awake)
      · rename_i blocked
        have blocked : (m.ec e).blocked = true := by simpa using blocked
        split
        · rename_i member
          rw [setSm_setEc, setEc_setEc]
          exact Move.timeout enabled armed (not_not.mp home) blocked member
        · rename_i gone
          exact ⟨e, i, armed, blocked, gone⟩

/-! ## Steps -/

theorem moves_go (graph : Graph cfg m.view) : Moves cfg m c (m.go cfg c) := by
  have stands := graph.pc c
  rw [show m.view.pc c = (m.cpu c).pc from rfl] at stands
  unfold go
  dsimp only
  split
  · rename_i pc
    exact moves_jump pc .boot
  · exact Move.stay
  · rename_i pc
    exact moves_jump pc .halt
  · rename_i f pc
    rw [pc] at stands
    exact moves_start pc stands.2
  · rename_i s pc
    exact moves_finish pc
  · rename_i r pc
    refine moves_jump pc ?_
    split
    · exact .divert r
    · rename_i free
      exact .user r (Bool.eq_false_iff.mpr free)
  · rename_i f pc
    split
    · exact Move.preempt pc
    · rename_i free
      exact moves_jump pc (.pass f (Bool.eq_false_iff.mpr free))
  · exact Move.stay
  · rename_i t pc
    refine moves_jump pc ?_
    split
    · exact .yield_ t
    · exact .help t
  · rename_i pc
    exact moves_jump pc .observed
  · rename_i pc
    exact moves_kill graph pc
  · rename_i b pc
    exact moves_schedule pc
  · rename_i t pc
    exact moves_dispatch pc
  · rename_i e a pc
    exact moves_activate pc
  · rename_i e a i pc
    exact moves_blockSc pc
  · rename_i i timed episode pc
    exact moves_dnBlock pc
  · rename_i e back pc
    exact moves_wake pc
  · rename_i t back pc
    exact moves_requeue pc

theorem moves_hypercall (graph : Graph cfg m.view) (h : Hypercall) : Moves cfg m c (m.hypercall cfg c h) := by
  unfold hypercall
  split
  · rename_i guard
    obtain ⟨pc, utcb⟩ := guard
    cases h with
    | ipcCall => exact moves_jump pc (.ipcCall utcb)
    | ipcReply => exact moves_sysIpcReply graph pc utcb
    | createSc s => exact moves_sysCreateSc pc s
    | dn i zero timed => exact moves_dn pc utcb i zero timed
    | up i =>
        refine moves_up i (.hypercall pc utcb) ?_
        rw [pc]
        exact .other .ovrflow
    | ctrlEc => exact moves_jump pc .ctrlEc
    | other s => exact moves_jump pc (.other s)
  · exact Move.stay

theorem moves_irq (i : Irq n) (x : Msg) : Moves cfg m c (m.irq cfg c i x) := by
  unfold irq
  split
  · exact Move.stay
  · rename_i back enabled
    cases i with
    | rrq => exact Move.jump (.rrq enabled)
    | rke =>
        have moved : Move cfg m c (m.setCpu c fun y => { y with armed := (m.cpu c).armed, sched := true, pc := back.pc }) :=
          .sched enabled id
        exact moved
    | budget =>
        dsimp only
        split
        · exact Move.sched enabled nofun
        · exact Move.stay
    | timeout e => exact moves_timeout enabled
    | gsi j => exact moves_up j (.gsi enabled) (.resume enabled)

/-- **Every step is one of the listed moves**, or fails for one of the listed causes. -/
theorem step_move (graph : Graph cfg m.view) (event : Event n) : Moves cfg m c (m.step cfg c event) := by
  unfold step
  split
  · exact Move.tick _
  · exact moves_go graph
  · rename_i pc
    exact moves_ipc pc _ _
  · rename_i pc
    exact moves_createRoot pc _
  · exact moves_hypercall graph _
  · rename_i pc
    exact moves_jump pc (.raise _)
  · rename_i pc
    exact moves_jump pc (.resolve _)
  · rename_i pc
    exact moves_jump pc .fatal
  · exact moves_irq _ _
  · rename_i pc
    exact moves_jump pc (.divert _)
  · rename_i pc
    exact Move.preempt pc
  · rename_i pc
    split
    · exact Move.stay
    · exact moves_jump pc (.illegal _)
  · rename_i pc
    split
    · exact Move.stay
    · exact moves_jump pc (.recalled _ _)
  · exact Move.stay

theorem put_elsewhere (m : Machine n k) (s : Nat) {c' : Fin k} (ne : c' ≠ c) :
    ∃ q, (m.put cfg c s).cpu c' = { m.cpu c' with release := q } := by
  unfold put
  split
  · exact ⟨(m.cpu c').release, by simp [putReady, ne]⟩
  · by_cases home : c' = cfg.scCpu s
    · exact ⟨(m.cpu c').release ++ [s], by simp [putRelease, home]⟩
    · exact ⟨(m.cpu c').release, by simp [putRelease, home]⟩

/-- Of another CPU, a step changes nothing but the release queue. -/
theorem Move.elsewhere {m' : Machine n k} (move : Move cfg m c m') {c' : Fin k} (ne : c' ≠ c) :
    ∃ q, m'.cpu c' = { m.cpu c' with release := q } := by
  cases move with
  | @wake e back s rest pc queue => exact put_elsewhere (m.takeQueue e s rest) s ne
  | @create s p creates fresh bound =>
      obtain ⟨q, same⟩ := put_elsewhere { m with created := s :: m.created } s ne
      exact ⟨q, by rw [goto_cpu, if_neg ne, same]⟩
  | @wait e a i pc blocked => exact ⟨(m.cpu c').release, by cases a <;> simp [after, ne]⟩
  | _ =>
      exact ⟨(m.cpu c').release, by simp [ne, Machine.preempt, unlinked, charge, putReady, pick, takeRelease]⟩
end Machine

end Nova.Kernel.Contexts
