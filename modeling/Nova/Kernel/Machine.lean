/-
# Nova.Kernel.Machine — execution and scheduling contexts

The kernel paths that move execution contexts (EC), scheduling contexts (SC) and
semaphores (SM): `src/syscall.cpp` (IPC and semaphore hypercalls), `src/ec.cpp`,
`src/sc.cpp`, `inc/ec.hpp`, `inc/sm.hpp`, `inc/queue.hpp`, and `handle_hazard` and the
`ret_user` functions of `src/x86_64/ec_arch.cpp`.

All of these functions end in another one and never return to user mode but through
a `ret_user` function.  So the state of a CPU contains the place `Pc` at which its
kernel code stands, and a step of a CPU executes the code of that place up to the next
one.  A step is at most one critical section; between two steps of a CPU the other CPUs
may do any number of steps.  Interrupts are taken in user mode, in `Cpu::halt`, at
`Cpu::preemption_point` and in the wait loop of `sys_ctrl_ec`.

What the code reads from outside of this state is part of the event: the hypercall, the
portal that a capability lookup finds, the hazards other than `SCHED`, which interrupt
arrives.  An assertion that fails, or a jump through a null pointer, is a `Fault`.

The queues of SCs and ECs are lists; `queued` is what `Queue::Element::queued` answers.
The other fields that no code reads are bookkeeping for the theorems, see `Ec`, `Sm`,
`Cpu` and `Machine`.
-/
import Nova.Theory.Chains

namespace Nova.Kernel.Contexts

open Nova.Theory.Chains

set_option autoImplicit false

/-- `Kobject::Subtype` of an EC -/
inductive Subtype
  | ecLocal | ecGlobal | ecVcpuReal | ecVcpuOffs
  deriving DecidableEq

/-- `Status`, as far as a hypercall of this state returns it -/
inductive Status
  | success | timeout | aborted | ovrflow | badHyp | badCap | badPar | badCpu | badFtr | badDev | insMem
  deriving DecidableEq

/-- The parameter of `send_msg`: where the EC continues after an exception or VM exit -/
inductive Msg
  | exception | vmexitVmx | vmexitSvm
  deriving DecidableEq

/-- The `ret_user` functions -/
inductive Ret
  | hypercall
  | msg (x : Msg)
  deriving DecidableEq

/-- The functions that `Ec::cont` points to -/
inductive Cont
  | retUser (r : Ret)
  | recvKern | recvUser
  | sendMsg (x : Msg)
  | sysIpcCall
  | sysFinish (s : Status) (clr : Bool)
  | dead | blocking | idle
  deriving DecidableEq

/-- The parameter `func` of `handle_hazard` -/
inductive Func
  | user (r : Ret)
  | idle
  deriving DecidableEq

def Func.cont : Func → Cont
  | .user r => .retUser r
  | .idle => .idle

/-- `sys_ipc_call` or `send_msg` -/
inductive Ipc
  | call
  | msg (x : Msg)
  deriving DecidableEq

/-- The continuation of an EC that helps -/
def Ipc.again : Ipc → Cont
  | .call => .sysIpcCall
  | .msg x => .sendMsg x

/-- The continuation of an EC that waits for the reply -/
def Ipc.wait : Ipc → Cont
  | .call => .retUser .hypercall
  | .msg x => .retUser (.msg x)

/-- The continuation of the callee -/
def Ipc.recv : Ipc → Cont
  | .call => .recvUser
  | .msg _ => .recvKern

/-- What follows `activate` when it returns -/
inductive After
  | schedule
  | loop (t : Nat)
  deriving DecidableEq

/-- What follows an interrupt handler, or `Sm::up` -/
inductive Back (n : Nat)
  | finish (s : Status)
  | ret (r : Ret)
  | idle
  | help (t : Fin n)
  | pause
  | hazard (f : Func)
  deriving DecidableEq

/-- The places of the kernel code; `episode` counts the calls of `block`. -/
inductive Pc (n : Nat)
  | boot
  | user
  | halt
  | run (k : Cont)
  | finish (s : Status)
  | ret (r : Ret)
  | hazard (f : Func)
  | ipc (i : Ipc)
  | help (t : Fin n)
  /-- the wait loop of `sys_ctrl_ec` -/
  | pause
  | kill
  | schedule (blocked : Bool)
  | loop (t : Nat)
  | activate (e : Fin n) (after : After)
  | blockSc (e : Fin n) (after : After) (episode : Nat)
  | dnBlock (sm : Nat) (timed : Bool) (episode : Nat)
  | wake (e : Fin n) (back : Back n)
  | requeue (t : Nat) (back : Back n)
  deriving DecidableEq

def Back.pc {n : Nat} : Back n → Pc n
  | .finish s => .finish s
  | .ret r => .ret r
  | .idle => .run .idle
  | .help t => .help t
  | .pause => .pause
  | .hazard f => .hazard f

/-- Where an interrupt handler returns to, at the places where interrupts are enabled -/
def Pc.resume {n : Nat} (x : Msg) : Pc n → Option (Back n)
  | .user => some (.ret (.msg x))
  | .halt => some .idle
  | .help t => some (.help t)
  | .pause => some .pause
  | .hazard f => some (.hazard f)
  | _ => none

/-- The mutable part of an `Ec`.  `timeout` is the semaphore of an enqueued
`Timeout_hypercall`.  The other fields are bookkeeping: `blocks` and `unblocks` count the
calls of `block` and `unblock`, `ticket` orders the waiters of a semaphore, `token` is the
semaphore whose token the EC got in a down that has not finished, and `armed` is the
episode for which the timeout was set. -/
structure Ec (n : Nat) where
  callee : Option (Fin n)
  caller : Option (Fin n)
  cont : Option Cont
  /-- `Queue<Sc>` -/
  queue : List Nat
  /-- as an element of `Queue<Ec>` -/
  queued : Bool
  timeout : Option Nat
  blocks : Nat
  unblocks : Nat
  ticket : Nat
  token : Option Nat
  armed : Nat

/-- The mutable part of an `Sc` -/
structure Sc where
  used : Nat
  left : Nat
  last : Nat
  queued : Bool

/-- An `Sm`.  Bookkeeping: the successful ups, the downs that finished with `SUCCESS`, the
tokens that downs with the zero flag discarded, and the number of waiters so far -/
structure Sm (n : Nat) where
  counter : Nat
  queue : List (Fin n)
  ups : Nat
  finished : Nat
  discarded : Nat
  arrivals : Nat

/-- The CPU-local data.  `deadline` is the time of `Timeout_budget::timeout` and `armed`
whether it is enqueued.  `entry` is bookkeeping: the EC on which `activate` was called last. -/
structure Cpu (n : Nat) where
  current : Fin n
  sc : Nat
  donations : Nat
  ready : Nat → List Nat
  prioTop : Nat
  release : List Nat
  /-- `Hazard::SCHED` -/
  sched : Bool
  deadline : Nat
  armed : Bool
  pc : Pc n
  entry : Fin n

/-- `created` and `retired` are bookkeeping: the SCs that exist, and those that `reply` gave up. -/
structure Machine (n k : Nat) where
  ec : Fin n → Ec n
  sc : Nat → Sc
  sm : Nat → Sm n
  cpu : Fin k → Cpu n
  now : Nat
  created : List Nat
  retired : List Nat

inductive Fault
  | nullCont | nullPartner | endless | recv | stateSave | replyLocal | queued | dequeue | wrongCpu | schedule | ready
  | timeout
  deriving DecidableEq

abbrev Result (n k : Nat) := Except Fault (Machine n k)

/-- `Scheduler::priorities` -/
abbrev priorities : Nat := 128

/-- The constant part of the objects.  No capability for the idle EC of a CPU is ever handed
out, so that no other SC is bound to it; priorities are 7 bits wide in `Sys_create_sc`.  ECs are
allocated in kernel memory, of which `hypervisor.ld` sets aside less than 16 MiB. -/
structure Config (n k : Nat) where
  subtype : Fin n → Subtype
  cpu : Fin n → Fin k
  ec : Nat → Fin n
  prio : Nat → Nat
  budget : Nat → Nat
  idleEc : Fin k → Fin n
  idleSc : Fin k → Nat
  prio_lt : ∀ s, prio s < priorities
  idle_cpu : ∀ c, cpu (idleEc c) = c
  idle_subtype : ∀ c, subtype (idleEc c) = .ecGlobal
  idle_ec : ∀ c, ec (idleSc c) = idleEc c
  idle_only : ∀ s c, ec s = idleEc c → s = idleSc c
  idle_prio : ∀ c, prio (idleSc c) = 0
  ec_count : n ≤ 2 ^ 24

namespace Config

variable {n k : Nat} (cfg : Config n k)

/-- `Sc::cpu`: `create_sc` gets the CPU of the EC. -/
def scCpu (s : Nat) : Fin k := cfg.cpu (cfg.ec s)

def Idle (e : Fin n) : Prop := e = cfg.idleEc (cfg.cpu e)

instance (e : Fin n) : Decidable (cfg.Idle e) := inferInstanceAs (Decidable (_ = _))

/-- `Ec::utcb` is not null: neither a kernel thread nor a virtual CPU -/
def Utcb (e : Fin n) : Prop := ¬ cfg.Idle e ∧ (cfg.subtype e = .ecLocal ∨ cfg.subtype e = .ecGlobal)

instance (e : Fin n) : Decidable (cfg.Utcb e) := inferInstanceAs (Decidable (_ ∧ _))

end Config

namespace Ec

variable {n : Nat}

/-- `blocked()` -/
def blocked (e : Ec n) : Bool := e.cont = none || e.cont = some .blocking

end Ec

namespace Machine

variable {n k : Nat} (cfg : Config n k)

def setEc (m : Machine n k) (e : Fin n) (f : Ec n → Ec n) : Machine n k :=
  { m with ec := Function.update m.ec e (f (m.ec e)) }

def setSc (m : Machine n k) (s : Nat) (f : Sc → Sc) : Machine n k :=
  { m with sc := Function.update m.sc s (f (m.sc s)) }

def setSm (m : Machine n k) (i : Nat) (f : Sm n → Sm n) : Machine n k :=
  { m with sm := Function.update m.sm i (f (m.sm i)) }

def setCpu (m : Machine n k) (c : Fin k) (f : Cpu n → Cpu n) : Machine n k :=
  { m with cpu := Function.update m.cpu c (f (m.cpu c)) }

def goto (c : Fin k) (p : Pc n) (m : Machine n k) : Machine n k :=
  m.setCpu c fun x => { x with pc := p }

/-- The EC that executes the kernel code -/
def self (m : Machine n k) (c : Fin k) : Fin n := (m.cpu c).current

section Fields

variable (m : Machine n k)

@[simp] theorem setEc_ec (e x : Fin n) (f : Ec n → Ec n) : (m.setEc e f).ec x = if x = e then f (m.ec e) else m.ec x :=
  Function.update_apply ..

@[simp] theorem setEc_sc (e : Fin n) (f : Ec n → Ec n) : (m.setEc e f).sc = m.sc := rfl
@[simp] theorem setEc_sm (e : Fin n) (f : Ec n → Ec n) : (m.setEc e f).sm = m.sm := rfl
@[simp] theorem setEc_cpu (e : Fin n) (f : Ec n → Ec n) : (m.setEc e f).cpu = m.cpu := rfl
@[simp] theorem setEc_now (e : Fin n) (f : Ec n → Ec n) : (m.setEc e f).now = m.now := rfl
@[simp] theorem setEc_created (e : Fin n) (f : Ec n → Ec n) : (m.setEc e f).created = m.created := rfl
@[simp] theorem setEc_retired (e : Fin n) (f : Ec n → Ec n) : (m.setEc e f).retired = m.retired := rfl

@[simp] theorem setSc_sc (s x : Nat) (f : Sc → Sc) : (m.setSc s f).sc x = if x = s then f (m.sc s) else m.sc x :=
  Function.update_apply ..

@[simp] theorem setSc_ec (s : Nat) (f : Sc → Sc) : (m.setSc s f).ec = m.ec := rfl
@[simp] theorem setSc_sm (s : Nat) (f : Sc → Sc) : (m.setSc s f).sm = m.sm := rfl
@[simp] theorem setSc_cpu (s : Nat) (f : Sc → Sc) : (m.setSc s f).cpu = m.cpu := rfl
@[simp] theorem setSc_now (s : Nat) (f : Sc → Sc) : (m.setSc s f).now = m.now := rfl
@[simp] theorem setSc_created (s : Nat) (f : Sc → Sc) : (m.setSc s f).created = m.created := rfl
@[simp] theorem setSc_retired (s : Nat) (f : Sc → Sc) : (m.setSc s f).retired = m.retired := rfl

@[simp] theorem setSm_sm (i x : Nat) (f : Sm n → Sm n) : (m.setSm i f).sm x = if x = i then f (m.sm i) else m.sm x :=
  Function.update_apply ..

@[simp] theorem setSm_ec (i : Nat) (f : Sm n → Sm n) : (m.setSm i f).ec = m.ec := rfl
@[simp] theorem setSm_sc (i : Nat) (f : Sm n → Sm n) : (m.setSm i f).sc = m.sc := rfl
@[simp] theorem setSm_cpu (i : Nat) (f : Sm n → Sm n) : (m.setSm i f).cpu = m.cpu := rfl
@[simp] theorem setSm_now (i : Nat) (f : Sm n → Sm n) : (m.setSm i f).now = m.now := rfl
@[simp] theorem setSm_created (i : Nat) (f : Sm n → Sm n) : (m.setSm i f).created = m.created := rfl
@[simp] theorem setSm_retired (i : Nat) (f : Sm n → Sm n) : (m.setSm i f).retired = m.retired := rfl

@[simp] theorem setCpu_cpu (c x : Fin k) (f : Cpu n → Cpu n) :
    (m.setCpu c f).cpu x = if x = c then f (m.cpu c) else m.cpu x :=
  Function.update_apply ..

@[simp] theorem setCpu_ec (c : Fin k) (f : Cpu n → Cpu n) : (m.setCpu c f).ec = m.ec := rfl
@[simp] theorem setCpu_sc (c : Fin k) (f : Cpu n → Cpu n) : (m.setCpu c f).sc = m.sc := rfl
@[simp] theorem setCpu_sm (c : Fin k) (f : Cpu n → Cpu n) : (m.setCpu c f).sm = m.sm := rfl
@[simp] theorem setCpu_now (c : Fin k) (f : Cpu n → Cpu n) : (m.setCpu c f).now = m.now := rfl
@[simp] theorem setCpu_created (c : Fin k) (f : Cpu n → Cpu n) : (m.setCpu c f).created = m.created := rfl
@[simp] theorem setCpu_retired (c : Fin k) (f : Cpu n → Cpu n) : (m.setCpu c f).retired = m.retired := rfl

@[simp] theorem goto_cpu (c x : Fin k) (p : Pc n) :
    (m.goto c p).cpu x = if x = c then { m.cpu c with pc := p } else m.cpu x :=
  Function.update_apply ..

@[simp] theorem goto_ec (c : Fin k) (p : Pc n) : (m.goto c p).ec = m.ec := rfl
@[simp] theorem goto_sc (c : Fin k) (p : Pc n) : (m.goto c p).sc = m.sc := rfl
@[simp] theorem goto_sm (c : Fin k) (p : Pc n) : (m.goto c p).sm = m.sm := rfl
@[simp] theorem goto_now (c : Fin k) (p : Pc n) : (m.goto c p).now = m.now := rfl
@[simp] theorem goto_created (c : Fin k) (p : Pc n) : (m.goto c p).created = m.created := rfl
@[simp] theorem goto_retired (c : Fin k) (p : Pc n) : (m.goto c p).retired = m.retired := rfl

@[simp] theorem setEc_self (e : Fin n) (f : Ec n → Ec n) (c : Fin k) : (m.setEc e f).self c = m.self c := rfl
@[simp] theorem setSc_self (s : Nat) (f : Sc → Sc) (c : Fin k) : (m.setSc s f).self c = m.self c := rfl
@[simp] theorem setSm_self (i : Nat) (f : Sm n → Sm n) (c : Fin k) : (m.setSm i f).self c = m.self c := rfl

@[simp] theorem goto_self (c x : Fin k) (p : Pc n) : (m.goto c p).self x = m.self x := by
  simp only [self, goto_cpu]
  split
  · rename_i same
    rw [same]
  · rfl

end Fields

/-! ## Execution contexts -/

/-- `make_current`: become current EC and invoke the continuation -/
def makeCurrent (c : Fin k) (e : Fin n) (m : Machine n k) : Result n k :=
  match (m.ec e).cont with
  | none => .error .nullCont
  | some f => .ok (m.setCpu c fun x => { x with current := e, pc := .run f })

/-- `donations` is `unsigned`. -/
def unsigned (d : Nat) : Nat := d % 2 ^ 32

/-- `donations--`, which wraps around at 0 -/
def decrement (d : Nat) : Nat := if d = 0 then 4294967295 else d - 1

/-- `set_partner` -/
def setPartner (c : Fin k) (e f : Fin n) (m : Machine n k) : Machine n k :=
  ((m.setEc e fun x => { x with callee := some f }).setEc f fun x => { x with caller := some e }).setCpu c
    fun x => { x with donations := unsigned (x.donations + 1) }

/-- The part of `rendezvous` after the callee is found waiting -/
def rendezvous (c : Fin k) (i : Ipc) (t : Fin n) (m : Machine n k) : Result n k :=
  let e := m.self c
  let m := (m.setEc e fun x => { x with cont := some i.wait }).setPartner c e t
  (m.setEc t fun x => { x with cont := some i.recv }).makeCurrent c t

/-- `activate`.  The end of the chain is not blocked, or has to be looked at under its lock. -/
def activate (c : Fin k) (e : Fin n) (after : After) (m : Machine n k) : Result n k :=
  match follow (fun x => (m.ec x).callee) n e with
  | none => .error .endless
  | some (f, d) =>
      let m := m.setCpu c fun x => { x with donations := unsigned d, entry := e }
      if (m.ec f).blocked then .ok (m.goto c (.blockSc f after (m.ec f).blocks)) else m.makeCurrent c f

/-- `clr_partner` of the caller `a`, whose answer is whether `donations` was not 0 -/
def clrPartner (c : Fin k) (a : Fin n) (m : Machine n k) : Except Fault (Bool × Machine n k) :=
  match (m.ec a).callee with
  | none => .error .nullPartner
  | some f =>
      let d := (m.cpu c).donations
      .ok (d ≠ 0, ((m.setEc f fun x => { x with caller := none }).setEc a fun x => { x with callee := none }).setCpu c
        fun x => { x with donations := decrement x.donations })

/-- `reply` -/
def reply (c : Fin k) (f : Option Cont) (m : Machine n k) : Result n k :=
  let e := m.self c
  let m := m.setEc e fun x => { x with cont := f }
  match (m.ec e).caller with
  | none => .ok ({ m with retired := (m.cpu c).sc :: m.retired }.goto c (.schedule true))
  | some a =>
      if cfg.subtype e ≠ .ecLocal then .error .replyLocal
      else
        match m.clrPartner c a with
        | .error fault => .error fault
        | .ok (true, m) => m.makeCurrent c a
        | .ok (false, m) => .ok (m.goto c (.activate (cfg.ec (m.cpu c).sc) .schedule))

/-- `kill` -/
def kill (c : Fin k) (m : Machine n k) : Result n k :=
  match (m.ec (m.self c)).caller with
  | none => m.reply cfg c (some .dead)
  | some a =>
      let abort := if (m.ec a).cont = some (.retUser .hypercall) then Cont.sysFinish .aborted false else .dead
      (m.setEc a fun x => { x with cont := some abort }).reply cfg c (some .dead)

/-- `sys_ipc_reply`.  The caller waits in a hypercall, or `state_save` asserts where it waits. -/
def sysIpcReply (c : Fin k) (m : Machine n k) : Result n k :=
  match (m.ec (m.self c)).caller with
  | none => m.reply cfg c none
  | some a =>
      match (m.ec a).cont with
      | some (.retUser _) => m.reply cfg c none
      | _ => .error .stateSave

/-- A hypercall that does not get its portal fails, an exception is fatal. -/
def refuse (c : Fin k) (i : Ipc) (s : Status) (m : Machine n k) : Machine n k :=
  match i with
  | .call => m.goto c (.finish s)
  | .msg _ => m.goto c .kill

/-- `sys_ipc_call` and `send_msg`, up to the preemption point of `help`.  A portal is bound to a
local EC (`sys_create_pt`). -/
def ipc (c : Fin k) (i : Ipc) (pt : Option (Fin n)) (noWait : Bool) (m : Machine n k) : Result n k :=
  match pt with
  | none => .ok (m.refuse c i .badCap)
  | some t =>
      if cfg.subtype t ≠ .ecLocal then .ok (m.refuse c i .badCap)
      else if cfg.cpu (m.self c) ≠ cfg.cpu t then .ok (m.refuse c i .badCpu)
      else if (m.ec t).cont = none then m.rendezvous c i t
      else if i = .call ∧ noWait then .ok (m.goto c (.finish .timeout))
      else if (m.ec t).cont = some .dead then .ok (m.refuse c i .aborted)
      else .ok ((m.setEc (m.self c) fun x => { x with cont := some i.again }).goto c (.help t))

/-- `recv_kern` and `recv_user`, with the assertions of `state_load` -/
def recv (c : Fin k) (i : Cont) (m : Machine n k) : Result n k :=
  let e := m.self c
  match (m.ec e).caller with
  | none => .error .recv
  | some a =>
      if cfg.Utcb e ∧ cfg.subtype e = .ecLocal ∧ (m.ec e).cont = some i then
        match i, (m.ec a).cont with
        | .recvKern, some (.retUser (.msg _)) => .ok (m.goto c (.ret .hypercall))
        | .recvUser, some (.retUser .hypercall) =>
            if cfg.Utcb a then .ok (m.goto c (.ret .hypercall)) else .error .recv
        | _, _ => .error .recv
      else .error .recv

/-- `sys_finish_status`.  The down that finishes no longer holds its token. -/
def finish (c : Fin k) (s : Status) (m : Machine n k) : Machine n k :=
  let e := m.self c
  match (m.ec e).token, s with
  | some i, .success =>
      ((m.setSm i fun x => { x with finished := x.finished + 1 }).setEc e fun x => { x with token := none }).goto c
        (.ret .hypercall)
  | _, _ => m.goto c (.ret .hypercall)

/-- The continuations -/
def start (c : Fin k) (f : Cont) (m : Machine n k) : Result n k :=
  match f with
  | .retUser r => .ok (m.goto c (.ret r))
  | .recvKern => m.recv cfg c .recvKern
  | .recvUser => m.recv cfg c .recvUser
  | .sendMsg x => .ok (m.goto c (.ipc (.msg x)))
  | .sysIpcCall => .ok (m.goto c (.ipc .call))
  | .sysFinish s clr =>
      .ok ((if clr then m.setEc (m.self c) fun x => { x with timeout := none } else m).goto c (.finish s))
  | .dead => .ok (m.goto c .kill)
  | .blocking => .ok (m.goto c .kill)
  | .idle => .ok (m.goto c (if (m.cpu c).sched then .hazard .idle else .halt))

/-! ## Scheduling contexts -/

/-- `Ready::enqueue` after its assertions -/
def putReady (c : Fin k) (s t : Nat) (m : Machine n k) : Machine n k :=
  let p := cfg.prio s
  let left := (m.sc s).left
  (m.setCpu c fun x => { x with
      prioTop := if p > x.prioTop then p else x.prioTop
      ready := Function.update x.ready p (if left ≠ 0 then s :: x.ready p else x.ready p ++ [s])
      sched := x.sched || (p > cfg.prio x.sc || s ≠ x.sc && p = cfg.prio x.sc && left ≠ 0) }).setSc s
    fun y => { y with queued := true, left := if left = 0 then cfg.budget s else left, last := t }

/-- `Ready::enqueue` -/
def readyEnqueue (c : Fin k) (s t : Nat) (m : Machine n k) : Result n k :=
  if cfg.scCpu s ≠ c then .error .wrongCpu
  else if (m.sc s).queued then .error .queued
  else .ok (m.putReady cfg c s t)

def putRelease (s : Nat) (m : Machine n k) : Machine n k :=
  (m.setCpu (cfg.scCpu s) fun x => { x with release := x.release ++ [s] }).setSc s fun y => { y with queued := true }

/-- `Release::enqueue`; the IPI is an event of the other CPU. -/
def releaseEnqueue (s : Nat) (m : Machine n k) : Result n k :=
  if (m.sc s).queued then .error .queued else .ok (m.putRelease cfg s)

/-- `Scheduler::unblock` -/
def unblock (c : Fin k) (s : Nat) (m : Machine n k) : Result n k :=
  if cfg.scCpu s = c then m.readyEnqueue cfg c s m.now else m.releaseEnqueue cfg s

/-- `while (queue[prio_top].empty() && prio_top) prio_top--` -/
def lowerTop (ready : Nat → List Nat) : Nat → Nat
  | 0 => 0
  | p + 1 => if ready (p + 1) = [] then lowerTop ready p else p + 1

/-- `schedule`, up to its loop -/
def schedule (c : Fin k) (blocked : Bool) (m : Machine n k) : Result n k :=
  let s := (m.cpu c).sc
  let t := m.now
  if !blocked && (m.sc s).queued then .error .schedule
  else
    let m := (m.setSc s fun y => { y with used := y.used + (t - y.last), left := (m.cpu c).deadline - t }).setCpu c
      fun x => { x with armed := false, sched := false }
    if blocked then .ok (m.goto c (.loop t)) else (m.readyEnqueue cfg c s t).map (goto c (.loop t))

/-- One turn of the loop of `schedule`, up to `activate` -/
def dispatch (c : Fin k) (t : Nat) (m : Machine n k) : Result n k :=
  let x := m.cpu c
  match x.ready x.prioTop with
  | [] => .error .ready
  | s :: rest =>
      if cfg.scCpu s ≠ c then .error .wrongCpu
      else if x.armed then .error .timeout
      else
        let ready := Function.update x.ready x.prioTop rest
        .ok ((m.setSc s fun y => { y with queued := false, last := t }).setCpu c fun x => { x with
          ready := ready
          prioTop := lowerTop ready x.prioTop
          sc := s
          armed := true
          deadline := t + (m.sc s).left
          pc := .activate (cfg.ec s) (.loop t) })

/-- `activate` returns. -/
def after (c : Fin k) (a : After) (m : Machine n k) : Machine n k :=
  match a with
  | .schedule => m.goto c (.schedule true)
  | .loop t => m.setCpu c fun x => { x with armed := false, pc := .loop t }

def putQueue (e : Fin n) (s : Nat) (m : Machine n k) : Machine n k :=
  (m.setEc e fun x => { x with queue := x.queue ++ [s] }).setSc s fun y => { y with queued := true }

/-- The current SC waits in the queue of the EC. -/
def enqueueSc (c : Fin k) (e : Fin n) (m : Machine n k) : Result n k :=
  if (m.sc (m.cpu c).sc).queued then .error .queued else .ok (m.putQueue e (m.cpu c).sc)

/-- `block_sc`, called by `activate` -/
def blockSc (c : Fin k) (e : Fin n) (a : After) (m : Machine n k) : Result n k :=
  if (m.ec e).blocked then (m.enqueueSc c e).map (after c a) else m.makeCurrent c e

/-- One turn of the loop of `unblock_sc` -/
def wake (c : Fin k) (e : Fin n) (back : Back n) (m : Machine n k) : Result n k :=
  match (m.ec e).queue with
  | [] => .ok (m.goto c back.pc)
  | s :: rest =>
      ((m.setEc e fun x => { x with queue := rest }).setSc s fun y => { y with queued := false }).unblock cfg c s

/-- One turn of the loop of `Scheduler::requeue` -/
def requeue (c : Fin k) (t : Nat) (back : Back n) (m : Machine n k) : Result n k :=
  match (m.cpu c).release with
  | [] => .ok (m.goto c back.pc)
  | s :: rest =>
      ((m.setCpu c fun x => { x with release := rest }).setSc s fun y => { y with queued := false }).readyEnqueue cfg c s t

/-- `sys_create_sc` -/
def sysCreateSc (c : Fin k) (s : Nat) (m : Machine n k) : Result n k :=
  if s ∈ m.created then .ok m
  else if cfg.prio s = 0 ∨ cfg.budget s = 0 then .ok (m.goto c (.finish .badPar))
  else if cfg.subtype (cfg.ec s) = .ecLocal then .ok (m.goto c (.finish .badCap))
  else ({ m with created := s :: m.created }.unblock cfg c s).map (goto c (.finish .success))

/-- `Scheduler::unblock` for the SC of the root EC, at the end of `create_root` -/
def createRoot (c : Fin k) (s : Nat) (m : Machine n k) : Result n k :=
  if s ∈ m.created ∨ cfg.prio s = 0 ∨ cfg.subtype (cfg.ec s) = .ecLocal ∨ cfg.scCpu s ≠ c then .ok m
  else { m with created := s :: m.created }.unblock cfg c s

/-! ## Semaphores -/

/-- `Sm::dn`, up to `block_sc` -/
def dn (c : Fin k) (i : Nat) (zero timed : Bool) (m : Machine n k) : Result n k :=
  let e := m.self c
  let s := m.sm i
  if s.counter ≠ 0 then
    .ok (((m.setSm i fun s => { s with
        counter := if zero then 0 else s.counter - 1
        discarded := s.discarded + if zero then s.counter - 1 else 0 }).setEc e fun x => { x with token := some i }).goto c
      (.finish .success))
  else if (m.ec e).queued then .error .queued
  else
    .ok (((m.setSm i fun s => { s with queue := s.queue ++ [e], arrivals := s.arrivals + 1 }).setEc e fun x => { x with
        cont := some .blocking
        queued := true
        blocks := x.blocks + 1
        ticket := s.arrivals }).goto c (.dnBlock i timed ((m.ec e).blocks + 1)))

/-- The rest of `Sm::dn` -/
def dnBlock (c : Fin k) (i : Nat) (timed : Bool) (m : Machine n k) : Result n k :=
  let e := m.self c
  if (m.ec e).blocked then
    match m.enqueueSc c e with
    | .error fault => .error fault
    | .ok m =>
        if timed then
          if (m.ec e).timeout ≠ none then .error .timeout
          else .ok ((m.setEc e fun x => { x with timeout := some i, armed := x.blocks }).goto c (.schedule true))
        else .ok (m.goto c (.schedule true))
  else .ok (m.goto c (.finish .success))

/-- `Sm::up`, up to `unblock_sc`; `fail` and `back` are what follows. -/
def up (c : Fin k) (i : Nat) (fail back : Back n) (m : Machine n k) : Machine n k :=
  match (m.sm i).queue with
  | [] =>
      if (m.sm i).counter = 2 ^ 64 - 1 then m.goto c fail.pc
      else (m.setSm i fun s => { s with counter := s.counter + 1, ups := s.ups + 1 }).goto c back.pc
  | e :: rest =>
      ((m.setSm i fun s => { s with queue := rest, ups := s.ups + 1 }).setEc e fun x => { x with
        cont := some (.sysFinish .success true)
        queued := false
        unblocks := x.unblocks + 1
        token := some i }).goto c (.wake e back)

/-- `Timeout::check` for the timeout of an EC, with `Sm::timeout` up to `unblock_sc` -/
def timeout (c : Fin k) (e : Fin n) (back : Back n) (m : Machine n k) : Result n k :=
  match (m.ec e).timeout with
  | none => .ok m
  | some i =>
      if cfg.cpu e ≠ c then .ok m
      else
        let m := m.setEc e fun x => { x with timeout := none }
        if !(m.ec e).blocked then .ok (m.goto c back.pc)
        else if e ∈ (m.sm i).queue then
          .ok (((m.setSm i fun s => { s with queue := s.queue.erase e }).setEc e fun x => { x with
            cont := some (.sysFinish .timeout false)
            queued := false
            unblocks := x.unblocks + 1 }).goto c (.wake e back))
        else .error .dequeue

/-! ## Steps -/

/-- The interrupts: `RRQ` and `RKE` from other CPUs, the timer for the budget of the current SC
and for the timeout of an EC, and devices -/
inductive Irq (n : Nat)
  | rrq | rke | budget
  | timeout (e : Fin n)
  | gsi (sm : Nat)

inductive Hypercall
  | ipcCall | ipcReply
  | createSc (s : Nat)
  | dn (sm : Nat) (zero timed : Bool)
  | up (sm : Nat)
  /-- `sys_ctrl_ec` with the strong flag, up to its wait loop -/
  | ctrlEc
  /-- any other hypercall, and those that fail in their checks -/
  | other (s : Status)

inductive Event (n : Nat)
  | tick (d : Nat)
  /-- the kernel code continues -/
  | go
  /-- the portal that `sys_ipc_call` or `send_msg` finds, and the timeout flag of the hypercall -/
  | lookup (pt : Option (Fin n)) (noWait : Bool)
  | createRoot (s : Nat)
  | hypercall (h : Hypercall)
  /-- an exception or VM exit: sent as message, resolved, or fatal -/
  | raise (x : Msg) | resolve (x : Msg) | fatal
  | irq (i : Irq n) (x : Msg)
  /-- hazards other than `SCHED` -/
  | divert | sleep | illegal | recalled

/-- `cont = func; Scheduler::schedule();` -/
def preempt (c : Fin k) (f : Func) (m : Machine n k) : Machine n k :=
  (m.setEc (m.self c) fun x => { x with cont := some f.cont }).goto c (.schedule false)

/-- `handle_hazard` falls through. -/
def Func.pass : Func → Pc n
  | .user _ => .user
  | .idle => .run .idle

/-- The event with which a recall is sent -/
def Ret.recall : Ret → Msg
  | .msg x => x
  | .hypercall => .exception

def go (c : Fin k) (m : Machine n k) : Result n k :=
  let x := m.cpu c
  match x.pc with
  | .boot => .ok (m.goto c (.schedule false))
  | .user => .ok m
  | .halt => .ok (m.goto c (.run .idle))
  | .run f => m.start cfg c f
  | .finish s => .ok (m.finish c s)
  | .ret r => .ok (m.goto c (if x.sched then .hazard (.user r) else .user))
  | .hazard f => .ok (if x.sched then m.preempt c f else m.goto c (Func.pass f))
  | .ipc _ => .ok m
  | .help t => .ok (m.goto c (if x.sched then .schedule false else .activate t .schedule))
  | .pause => .ok (m.goto c (.finish .success))
  | .kill => m.kill cfg c
  | .schedule b => m.schedule cfg c b
  | .loop t => m.dispatch cfg c t
  | .activate e a => m.activate c e a
  | .blockSc e a _ => m.blockSc c e a
  | .dnBlock i timed _ => m.dnBlock c i timed
  | .wake e back => m.wake cfg c e back
  | .requeue t back => m.requeue cfg c t back

def hypercall (c : Fin k) (h : Hypercall) (m : Machine n k) : Result n k :=
  if (m.cpu c).pc = .user ∧ cfg.Utcb (m.self c) then
    match h with
    | .ipcCall => .ok (m.goto c (.ipc .call))
    | .ipcReply => m.sysIpcReply cfg c
    | .createSc s => m.sysCreateSc cfg c s
    | .dn i zero timed => m.dn c i zero timed
    | .up i => .ok (m.up c i (.finish .ovrflow) (.finish .success))
    | .ctrlEc => .ok (m.goto c .pause)
    | .other s => .ok (m.goto c (.finish s))
  else .ok m

def irq (c : Fin k) (i : Irq n) (x : Msg) (m : Machine n k) : Result n k :=
  match (m.cpu c).pc.resume x with
  | none => .ok m
  | some back =>
      match i with
      | .rrq => .ok (m.goto c (.requeue m.now back))
      | .rke => .ok (m.setCpu c fun y => { y with sched := true, pc := back.pc })
      | .budget =>
          .ok (if (m.cpu c).armed ∧ (m.cpu c).deadline ≤ m.now then
            m.setCpu c fun y => { y with armed := false, sched := true, pc := back.pc } else m)
      | .timeout e => m.timeout cfg c e back
      | .gsi j => .ok (m.up c j back back)

def step (c : Fin k) (event : Event n) (m : Machine n k) : Result n k :=
  match event, (m.cpu c).pc with
  | .tick d, _ => .ok { m with now := m.now + d }
  | .go, _ => m.go cfg c
  | .lookup pt noWait, .ipc i => m.ipc cfg c i pt noWait
  | .createRoot s, .boot => m.createRoot cfg c s
  | .hypercall h, _ => m.hypercall cfg c h
  | .raise x, .user => .ok (m.goto c (.ipc (.msg x)))
  | .resolve x, .user => .ok (m.goto c (.ret (.msg x)))
  | .fatal, .user => .ok (m.goto c .kill)
  | .irq i x, _ => m.irq cfg c i x
  | .divert, .ret r => .ok (m.goto c (.hazard (.user r)))
  | .sleep, .hazard f => .ok (m.preempt c f)
  | .illegal, .hazard (.user _) => .ok (if (m.cpu c).sched then m else m.goto c .kill)
  | .recalled, .hazard (.user r) => .ok (if (m.cpu c).sched then m else m.goto c (.ipc (.msg (Ret.recall r))))
  | _, _ => .ok m

/-- A run of all CPUs -/
def exec (m : Machine n k) (events : List (Fin k × Event n)) : Result n k :=
  events.foldlM (fun m e => m.step cfg e.1 e.2) m

/-! ## Boot -/

/-- The continuation of a new EC: the constructors of `Ec_arch`, `create_idle` and `create_root` -/
def boots (root : Option (Fin n)) (vm : Msg) (e : Fin n) : Option Cont :=
  if cfg.Idle e then some .idle
  else
    match cfg.subtype e with
    | .ecLocal => none
    | .ecGlobal => some (if root = some e then .retUser .hypercall else .sendMsg .exception)
    | _ => some (.sendMsg vm)

/-- Each CPU has created its idle EC and the SC for it; `root` is the root EC, `vm` the kind of
virtual machines, and `count` are the initial values of the semaphores. -/
def init (root : Option (Fin n)) (vm : Msg) (count : Nat → Nat) : Machine n k where
  ec := fun e =>
    { callee := none, caller := none, cont := boots cfg root vm e, queue := [], queued := false, timeout := none
      blocks := 0, unblocks := 0, ticket := 0, token := none, armed := 0 }
  sc := fun _ => { used := 0, left := 0, last := 0, queued := false }
  sm := fun i => { counter := count i % 2 ^ 64, queue := [], ups := 0, finished := 0, discarded := 0, arrivals := 0 }
  cpu := fun c =>
    { current := cfg.idleEc c, sc := cfg.idleSc c, donations := 0, ready := fun _ => [], prioTop := 0, release := []
      sched := false, deadline := 0, armed := false, pc := .boot, entry := cfg.idleEc c }
  now := 0
  created := (List.finRange k).map cfg.idleSc
  retired := []

end Machine

end Nova.Kernel.Contexts
