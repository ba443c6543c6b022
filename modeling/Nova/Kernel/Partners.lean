/-
# Nova.Kernel.Partners — the graph of callers and callees

`View` is the part of a machine that the graph depends on.  `Links` is its invariant
as far as it does not depend on where the CPUs stand: callee and caller are inverse to
each other, chains end, an EC with a callee waits in a `ret_user` function, an EC without
continuation has no partner, the current EC has no callee, and the ECs that wait for a
semaphore are the blocked ones.  `Stands` is what holds at each place of the kernel
code, and `Graph` is both.

Every operation changes the view in one of few ways; a lemma for each of them says that
`Graph` is kept, and `step_graph` goes through the operations.
-/
import Nova.Kernel.Machine
import Nova.Theory.Runs

namespace Nova.Kernel.Contexts

open Nova.Theory.Chains
open Nova.Theory.Runs

set_option autoImplicit false

structure View (n k : Nat) where
  callee : Fin n → Option (Fin n)
  caller : Fin n → Option (Fin n)
  cont : Fin n → Option Cont
  queued : Fin n → Bool
  queue : Nat → List (Fin n)
  current : Fin k → Fin n
  sc : Fin k → Nat
  pc : Fin k → Pc n

variable {n k : Nat}

namespace Machine

def view (m : Machine n k) : View n k where
  callee := fun e => (m.ec e).callee
  caller := fun e => (m.ec e).caller
  cont := fun e => (m.ec e).cont
  queued := fun e => (m.ec e).queued
  queue := fun i => (m.sm i).queue
  current := fun c => (m.cpu c).current
  sc := fun c => (m.cpu c).sc
  pc := fun c => (m.cpu c).pc

section Views

variable (m : Machine n k)

theorem comp_update {α β γ : Type} [DecidableEq α] (g : β → γ) (f : α → β) (a : α) (v : β) :
    (fun x => g (Function.update f a v x)) = Function.update (fun x => g (f x)) a (g v) :=
  Function.comp_update g f a v

theorem view_setEc (e : Fin n) (f : Ec n → Ec n) : (m.setEc e f).view = { m.view with
    callee := Function.update m.view.callee e (f (m.ec e)).callee
    caller := Function.update m.view.caller e (f (m.ec e)).caller
    cont := Function.update m.view.cont e (f (m.ec e)).cont
    queued := Function.update m.view.queued e (f (m.ec e)).queued } := by
  simp only [view, setEc, comp_update]

theorem view_setSm (i : Nat) (f : Sm n → Sm n) : (m.setSm i f).view = { m.view with
    queue := Function.update m.view.queue i (f (m.sm i)).queue } := by
  simp only [view, setSm, comp_update]

theorem view_setCpu (c : Fin k) (f : Cpu n → Cpu n) : (m.setCpu c f).view = { m.view with
    current := Function.update m.view.current c (f (m.cpu c)).current
    sc := Function.update m.view.sc c (f (m.cpu c)).sc
    pc := Function.update m.view.pc c (f (m.cpu c)).pc } := by
  simp only [view, setCpu, comp_update]

@[simp] theorem view_setSc (s : Nat) (f : Sc → Sc) : (m.setSc s f).view = m.view := rfl

@[simp] theorem update_callee (e : Fin n) : Function.update m.view.callee e (m.ec e).callee = m.view.callee :=
  Function.update_eq_self e m.view.callee

@[simp] theorem update_caller (e : Fin n) : Function.update m.view.caller e (m.ec e).caller = m.view.caller :=
  Function.update_eq_self e m.view.caller

@[simp] theorem update_cont (e : Fin n) : Function.update m.view.cont e (m.ec e).cont = m.view.cont :=
  Function.update_eq_self e m.view.cont

@[simp] theorem update_queued (e : Fin n) : Function.update m.view.queued e (m.ec e).queued = m.view.queued :=
  Function.update_eq_self e m.view.queued

@[simp] theorem update_queue (i : Nat) : Function.update m.view.queue i (m.sm i).queue = m.view.queue :=
  Function.update_eq_self i m.view.queue

@[simp] theorem update_current (c : Fin k) : Function.update m.view.current c (m.cpu c).current = m.view.current :=
  Function.update_eq_self c m.view.current

@[simp] theorem update_sc (c : Fin k) : Function.update m.view.sc c (m.cpu c).sc = m.view.sc :=
  Function.update_eq_self c m.view.sc

@[simp] theorem update_pc (c : Fin k) : Function.update m.view.pc c (m.cpu c).pc = m.view.pc :=
  Function.update_eq_self c m.view.pc

/-- Changes of an EC that the view does not see -/
theorem view_setEc_of (e : Fin n) (f : Ec n → Ec n)
    (same : ∀ x, (f x).callee = x.callee ∧ (f x).caller = x.caller ∧ (f x).cont = x.cont ∧ (f x).queued = x.queued) :
    (m.setEc e f).view = m.view := by
  obtain ⟨callee, caller, cont, queued⟩ := same (m.ec e)
  rw [view_setEc, callee, caller, cont, queued, update_callee, update_caller, update_cont, update_queued]

theorem view_setCpu_of (c : Fin k) (f : Cpu n → Cpu n)
    (same : ∀ x, (f x).current = x.current ∧ (f x).sc = x.sc ∧ (f x).pc = x.pc) : (m.setCpu c f).view = m.view := by
  obtain ⟨current, sc, pc⟩ := same (m.cpu c)
  rw [view_setCpu, current, sc, pc, update_current, update_sc, update_pc]

theorem view_cont (e : Fin n) (f : Option Cont) :
    (m.setEc e fun x => { x with cont := f }).view = { m.view with cont := Function.update m.view.cont e f } := by
  rw [view_setEc, update_callee, update_caller, update_queued]

theorem view_callee (e : Fin n) (f : Option (Fin n)) :
    (m.setEc e fun x => { x with callee := f }).view = { m.view with callee := Function.update m.view.callee e f } := by
  rw [view_setEc, update_cont, update_caller, update_queued]

theorem view_caller (e : Fin n) (f : Option (Fin n)) :
    (m.setEc e fun x => { x with caller := f }).view = { m.view with caller := Function.update m.view.caller e f } := by
  rw [view_setEc, update_cont, update_callee, update_queued]

theorem view_goto (c : Fin k) (p : Pc n) :
    (m.goto c p).view = { m.view with pc := Function.update m.view.pc c p } := by
  rw [goto, view_setCpu, update_current, update_sc]

end Views

end Machine

/-! ## The invariant -/

structure Links (cfg : Config n k) (v : View n k) : Prop where
  inverse : ∀ e f, v.callee e = some f ↔ v.caller f = some e
  ends : ∀ e, Ends v.callee e
  callee : ∀ e f, v.callee e = some f →
    cfg.subtype f = .ecLocal ∧ cfg.cpu f = cfg.cpu e ∧ ∃ r, v.cont e = some (.retUser r)
  fresh : ∀ e, v.cont e = none → v.caller e = none
  kern : ∀ f, v.cont f = some .recvKern → ∃ e x, v.caller f = some e ∧ v.cont e = some (.retUser (.msg x))
  user : ∀ f, v.cont f = some .recvUser →
    ∃ e, v.caller f = some e ∧ v.cont e = some (.retUser .hypercall) ∧ cfg.Utcb e
  call : ∀ e, v.cont e = some .sysIpcCall → cfg.Utcb e
  idle : ∀ e, v.cont e = some .idle ↔ cfg.Idle e
  home : ∀ c, cfg.cpu (v.current c) = c
  last : ∀ c, v.callee (v.current c) = none
  owner : ∀ c, cfg.scCpu (v.sc c) = c
  nodup : ∀ i, (v.queue i).Nodup
  unique : ∀ i j e, e ∈ v.queue i → e ∈ v.queue j → i = j
  waiting : ∀ e, v.cont e = some .blocking ↔ ∃ i, e ∈ v.queue i
  flag : ∀ e, v.queued e = true ↔ v.cont e = some .blocking

namespace View

variable (cfg : Config n k) (v : View n k) (c : Fin k)

/-- The current EC executes code of its own. -/
def Active : Prop := ∃ f, v.cont (v.current c) = some f ∧ f ≠ .blocking ∧ f ≠ .dead ∧ f ≠ .idle

def StandsBack : Back n → Prop
  | .finish _ | .ret _ | .pause | .hazard (.user _) => v.Active c
  | .idle | .hazard .idle => v.cont (v.current c) = some .idle
  | .help t => v.Active c ∧ cfg.cpu t = c ∧ v.cont t ≠ none

def Stands : Pc n → Prop
  | .boot | .schedule _ | .loop _ => True
  | .user | .finish _ | .ret _ | .pause | .hazard (.user _) => v.Active c
  | .halt | .hazard .idle => v.cont (v.current c) = some .idle
  | .run f => v.cont (v.current c) = some f ∧ f ≠ .blocking
  | .ipc i => v.Active c ∧ (i = .call → cfg.Utcb (v.current c))
  | .help t => v.Active c ∧ cfg.cpu t = c ∧ v.cont t ≠ none
  | .kill => ∃ f, v.cont (v.current c) = some f ∧ f ≠ .blocking ∧ f ≠ .idle
  | .activate e _ => cfg.cpu e = c
  | .blockSc e _ _ => cfg.cpu e = c ∧ v.callee e = none
  | .dnBlock _ _ _ =>
      v.cont (v.current c) = some .blocking ∨ v.cont (v.current c) = some (.sysFinish .success true)
  | .wake _ back | .requeue _ back => v.StandsBack cfg c back

end View

structure Graph (cfg : Config n k) (v : View n k) : Prop extends Links cfg v where
  pc : ∀ c, v.Stands cfg c (v.pc c)

namespace View

variable {cfg : Config n k} {v v' : View n k} {c : Fin k}

theorem stands_back {b : Back n} : v.Stands cfg c b.pc ↔ v.StandsBack cfg c b := by
  cases b with
  | finish s => exact Iff.rfl
  | ret r => exact Iff.rfl
  | idle =>
      show (_ ∧ _) ↔ _
      exact ⟨fun h => h.1, fun h => ⟨h, by decide⟩⟩
  | help t => exact Iff.rfl
  | pause => exact Iff.rfl
  | hazard f =>
      cases f with
      | user r => exact Iff.rfl
      | idle => exact Iff.rfl

/-- The place where an interrupt is taken -/
theorem stands_resume {p : Pc n} {x : Msg} {b : Back n} (stands : v.Stands cfg c p) (enabled : p.resume x = some b) :
    v.StandsBack cfg c b := by
  cases p with
  | user => cases enabled; exact stands
  | halt => cases enabled; exact stands
  | help t => cases enabled; exact stands
  | pause => cases enabled; exact stands
  | hazard f =>
      cases enabled
      cases f with
      | user r => exact stands
      | idle => exact stands
  | _ => cases enabled

/-- What a CPU stands on is the ECs of that CPU. -/
theorem Stands.congr {p : Pc n} (stands : v.Stands cfg c p) (home : cfg.cpu (v.current c) = c)
    (current : v'.current c = v.current c)
    (same : ∀ e, cfg.cpu e = c → v'.cont e = v.cont e ∧ v'.callee e = v.callee e) : v'.Stands cfg c p := by
  have cont : v'.cont (v'.current c) = v.cont (v.current c) := by
    rw [current]
    exact (same _ home).1
  have active : v.Active c → v'.Active c := by
    rintro ⟨f, here, rest⟩
    exact ⟨f, cont.trans here, rest⟩
  have back : ∀ b, v.StandsBack cfg c b → v'.StandsBack cfg c b := by
    intro b
    cases b with
    | finish s => exact active
    | ret r => exact active
    | idle => exact cont.trans
    | help t => exact fun ⟨act, cpu, busy⟩ => ⟨active act, cpu, by rwa [(same t cpu).1]⟩
    | pause => exact active
    | hazard f =>
        cases f with
        | user r => exact active
        | idle => exact cont.trans
  cases p with
  | boot => trivial
  | schedule b => trivial
  | loop t => trivial
  | user => exact active stands
  | pause => exact active stands
  | finish s => exact active stands
  | ret r => exact active stands
  | halt => exact cont.trans stands
  | hazard f =>
      cases f with
      | user r => exact active stands
      | idle => exact cont.trans stands
  | run f => exact ⟨cont.trans stands.1, stands.2⟩
  | ipc i =>
      refine ⟨active stands.1, fun call => ?_⟩
      rw [current]
      exact stands.2 call
  | help t => exact ⟨active stands.1, stands.2.1, by rw [(same t stands.2.1).1]; exact stands.2.2⟩
  | kill =>
      obtain ⟨f, here, rest⟩ := stands
      exact ⟨f, cont.trans here, rest⟩
  | activate e a => exact stands
  | blockSc e a i => exact ⟨stands.1, (same e stands.1).2.trans stands.2⟩
  | dnBlock i t e => exact stands.imp cont.trans cont.trans
  | wake e b => exact back b stands
  | requeue t b => exact back b stands

end View

namespace Graph

variable {cfg : Config n k} {v v' : View n k} {c : Fin k}

/-- A change by `c` of its own ECs -/
theorem of_links (graph : Graph cfg v) (links : Links cfg v')
    (ecs : ∀ e, cfg.cpu e ≠ c → v'.cont e = v.cont e ∧ v'.callee e = v.callee e)
    (cpus : ∀ c', c' ≠ c → v'.current c' = v.current c' ∧ v'.pc c' = v.pc c')
    (here : v'.Stands cfg c (v'.pc c)) : Graph cfg v' := by
  refine ⟨links, fun c' => ?_⟩
  by_cases same : c' = c
  · subst same
    exact here
  · obtain ⟨current, pc⟩ := cpus c' same
    rw [pc]
    refine (graph.pc c').congr (graph.home c') current fun e home => ecs e ?_
    rw [home]
    exact same

/-- A chain stays on its CPU. -/
theorem home_hop (graph : Graph cfg v) {d : Nat} {e f : Fin n} (reached : hop v.callee d e = some f) :
    cfg.cpu f = cfg.cpu e :=
  hop_closed (P := fun x => cfg.cpu x = cfg.cpu e) (fun a b here next => (graph.callee a b next).2.1.trans here) rfl reached

/-- The CPU comes to another place. -/
theorem goto (graph : Graph cfg v) {p : Pc n} (stands : v.Stands cfg c p) :
    Graph cfg { v with pc := Function.update v.pc c p } := by
  refine graph.of_links (c := c) ⟨graph.inverse, graph.ends, graph.callee, graph.fresh, graph.kern, graph.user, graph.call,
    graph.idle, graph.home, graph.last, graph.owner, graph.nodup, graph.unique, graph.waiting, graph.flag⟩
    (fun _ _ => ⟨rfl, rfl⟩) (fun c' ne => ⟨rfl, Function.update_of_ne ne ..⟩) ?_
  show View.Stands cfg _ c (Function.update v.pc c p c)
  rw [Function.update_self]
  exact stands.congr (graph.home c) rfl fun _ _ => ⟨rfl, rfl⟩

/-- `make_current` -/
theorem enter (graph : Graph cfg v) {e : Fin n} {f : Cont} (home : cfg.cpu e = c) (last : v.callee e = none)
    (cont : v.cont e = some f) (notBlocking : f ≠ .blocking) :
    Graph cfg { v with current := Function.update v.current c e, pc := Function.update v.pc c (.run f) } := by
  refine graph.of_links (c := c) ⟨graph.inverse, graph.ends, graph.callee, graph.fresh, graph.kern, graph.user, graph.call,
    graph.idle, ?_, ?_, graph.owner, graph.nodup, graph.unique, graph.waiting, graph.flag⟩ (fun _ _ => ⟨rfl, rfl⟩)
    (fun c' ne => ⟨Function.update_of_ne ne .., Function.update_of_ne ne ..⟩) ?_
  · intro c'
    by_cases same : c' = c
    · subst same
      simpa using home
    · simpa [same] using graph.home c'
  · intro c'
    by_cases same : c' = c
    · subst same
      simpa using last
    · simpa [same] using graph.last c'
  · show View.Stands cfg _ c (Function.update v.pc c (.run f) c)
    rw [Function.update_self]
    show v.cont (Function.update v.current c e c) = _ ∧ _
    rw [Function.update_self]
    exact ⟨cont, notBlocking⟩

/-- The current EC gets another continuation. -/
theorem setCont (graph : Graph cfg v) (active : v.Active c) {f : Cont} {p : Pc n}
    (kind : f ≠ .recvKern ∧ f ≠ .recvUser ∧ f ≠ .blocking ∧ f ≠ .idle) (call : f = .sysIpcCall → cfg.Utcb (v.current c))
    (stands : View.Stands cfg { v with cont := Function.update v.cont (v.current c) (some f) } c p) :
    Graph cfg { v with cont := Function.update v.cont (v.current c) (some f), pc := Function.update v.pc c p } := by
  obtain ⟨old, was, notBlocking, notDead, notIdle⟩ := active
  have last := graph.last c
  have home := graph.home c
  generalize v.current c = e at *
  have caller : ∀ f, v.caller f ≠ some e := by
    intro f is
    rw [(graph.inverse e f).mpr is] at last
    cases last
  refine graph.of_links (c := c) ⟨graph.inverse, graph.ends, ?_, ?_, ?_, ?_, ?_, ?_, graph.home, graph.last, graph.owner,
    graph.nodup, graph.unique, ?_, ?_⟩ ?_ (fun c' ne => ⟨rfl, Function.update_of_ne ne ..⟩) ?_
  · intro a b is
    have ne : a ≠ e := by
      rintro rfl
      rw [last] at is
      cases is
    simpa [Function.update_of_ne ne] using graph.callee a b is
  · intro a none
    by_cases here : a = e
    · simp [here] at none
    · exact graph.fresh a (by simpa [here] using none)
  · intro a is
    by_cases here : a = e
    · simp [here, kind.1] at is
    · obtain ⟨b, x, to_, waits⟩ := graph.kern a (by simpa [here] using is)
      have ne : b ≠ e := fun eq => caller a (eq ▸ to_)
      exact ⟨b, x, to_, by simpa [ne] using waits⟩
  · intro a is
    by_cases here : a = e
    · simp [here, kind.2.1] at is
    · obtain ⟨b, to_, waits, utcb⟩ := graph.user a (by simpa [here] using is)
      have ne : b ≠ e := fun eq => caller a (eq ▸ to_)
      exact ⟨b, to_, by simpa [ne] using waits, utcb⟩
  · intro a is
    by_cases here : a = e
    · subst here
      exact call (by simpa using is)
    · exact graph.call a (by simpa [here] using is)
  · intro a
    by_cases here : a = e
    · subst here
      have : ¬ cfg.Idle a := fun idle => notIdle (Option.some.inj (was.symm.trans ((graph.idle a).mpr idle)))
      simpa [kind.2.2.2] using this
    · simpa [here] using graph.idle a
  · intro a
    by_cases here : a = e
    · subst here
      have := graph.waiting a
      rw [was] at this
      simpa [kind.2.2.1, notBlocking] using this
    · simpa [here] using graph.waiting a
  · intro a
    by_cases here : a = e
    · subst here
      have := graph.flag a
      rw [was] at this
      simpa [kind.2.2.1, notBlocking] using this
    · simpa [here] using graph.flag a
  · intro a away
    have ne : a ≠ e := fun eq => away (eq ▸ home)
    exact ⟨Function.update_of_ne ne .., rfl⟩
  · show View.Stands cfg _ c (Function.update v.pc c p c)
    rw [Function.update_self]
    exact stands.congr (graph.home c) rfl fun _ _ => ⟨rfl, rfl⟩

/-- `rendezvous` -/
theorem link (graph : Graph cfg v) (active : v.Active c) {i : Ipc} {t : Fin n} (utcb : i = .call → cfg.Utcb (v.current c))
    (waits : v.cont t = none) (isLocal : cfg.subtype t = .ecLocal) (home : cfg.cpu t = c) :
    Graph cfg { v with
      callee := Function.update v.callee (v.current c) (some t)
      caller := Function.update v.caller t (some (v.current c))
      cont := Function.update (Function.update v.cont (v.current c) (some i.wait)) t (some i.recv)
      current := Function.update v.current c t
      pc := Function.update v.pc c (.run i.recv) } := by
  obtain ⟨old, was, notBlocking, notDead, notIdle⟩ := active
  have last := graph.last c
  have homeE := graph.home c
  have currents : ∀ c', c' ≠ c → v.current c' ≠ v.current c := by
    intro c' ne eq
    exact ne ((graph.home c').symm.trans ((congrArg cfg.cpu eq).trans homeE))
  generalize v.current c = e at *
  have ne : e ≠ t := by
    rintro rfl
    rw [was] at waits
    cases waits
  have free : v.callee t = none := by
    cases has : v.callee t with
    | none => rfl
    | some f =>
        obtain ⟨-, -, r, cont⟩ := graph.callee t f has
        rw [waits] at cont
        cases cont
  have fresh := graph.fresh t waits
  have caller : ∀ f, v.caller f ≠ some e := by
    intro f is
    rw [(graph.inverse e f).mpr is] at last
    cases last
  have callerT : ∀ f, v.caller f ≠ some t := by
    intro f is
    rw [(graph.inverse t f).mpr is] at free
    cases free
  have calleeT : ∀ a, v.callee a ≠ some t := by
    intro a is
    rw [(graph.inverse a t).mp is] at fresh
    cases fresh
  have notIdleT : ¬ cfg.Idle t := fun idle => by
    rw [(graph.idle t).mpr idle] at waits
    cases waits
  refine graph.of_links (c := c) ⟨?_, ends_link graph.ends free ne.symm, ?_, ?_, ?_, ?_, ?_, ?_, ?_, ?_, graph.owner, graph.nodup,
    graph.unique, ?_, ?_⟩ ?_ (fun c' other => ⟨Function.update_of_ne other .., Function.update_of_ne other ..⟩) ?_
  · intro a b
    by_cases ha : a = e
    · subst ha
      by_cases hb : b = t
      · subst hb
        simp
      · simp [hb, Ne.symm hb, caller b]
    · by_cases hb : b = t
      · subst hb
        simp [ha, Ne.symm ha, calleeT a]
      · simpa [ha, hb] using graph.inverse a b
  · intro a b is
    by_cases ha : a = e
    · subst ha
      obtain rfl : t = b := by simpa using is
      refine ⟨isLocal, home.trans homeE.symm, ?_⟩
      cases i with
      | call => exact ⟨.hypercall, by simp [ne, Ipc.wait]⟩
      | msg x => exact ⟨.msg x, by simp [ne, Ipc.wait]⟩
    · have old : v.callee a = some b := by simpa [ha] using is
      obtain ⟨sub, cpu, r, cont⟩ := graph.callee a b old
      have notT : a ≠ t := by
        rintro rfl
        rw [waits] at cont
        cases cont
      exact ⟨sub, cpu, r, by simpa [ha, notT] using cont⟩
  · intro a none
    by_cases hb : a = t
    · subst hb
      simp at none
    · by_cases ha : a = e
      · subst ha
        simp [hb] at none
      · simpa [hb] using graph.fresh a (by simpa [ha, hb] using none)
  · intro a is
    by_cases hb : a = t
    · subst hb
      cases i with
      | call => simp [Ipc.recv] at is
      | msg x => exact ⟨e, x, by simp, by simp [ne, Ipc.wait]⟩
    · by_cases ha : a = e
      · subst ha
        cases i <;> simp [hb, Ipc.wait] at is
      · obtain ⟨b, x, from_, cont⟩ := graph.kern a (by simpa [ha, hb] using is)
        have notE : b ≠ e := fun eq => caller a (eq ▸ from_)
        have notT : b ≠ t := fun eq => callerT a (eq ▸ from_)
        exact ⟨b, x, by simpa [hb] using from_, by simpa [notE, notT] using cont⟩
  · intro a is
    by_cases hb : a = t
    · subst hb
      cases i with
      | call => exact ⟨e, by simp, by simp [ne, Ipc.wait], utcb rfl⟩
      | msg x => simp [Ipc.recv] at is
    · by_cases ha : a = e
      · subst ha
        cases i <;> simp [hb, Ipc.wait] at is
      · obtain ⟨b, from_, cont, has⟩ := graph.user a (by simpa [ha, hb] using is)
        have notE : b ≠ e := fun eq => caller a (eq ▸ from_)
        have notT : b ≠ t := fun eq => callerT a (eq ▸ from_)
        exact ⟨b, by simpa [hb] using from_, by simpa [notE, notT] using cont, has⟩
  · intro a is
    by_cases hb : a = t
    · subst hb
      cases i <;> simp [Ipc.recv] at is
    · by_cases ha : a = e
      · subst ha
        cases i <;> simp [hb, Ipc.wait] at is
      · exact graph.call a (by simpa [ha, hb] using is)
  · intro a
    by_cases hb : a = t
    · subst hb
      cases i <;> simpa [Ipc.recv] using notIdleT
    · by_cases ha : a = e
      · subst ha
        have : ¬ cfg.Idle a := fun idle => notIdle (Option.some.inj (was.symm.trans ((graph.idle a).mpr idle)))
        cases i <;> simpa [hb, Ipc.wait] using this
      · simpa [ha, hb] using graph.idle a
  · intro c'
    by_cases same : c' = c
    · subst same
      simpa using home
    · simpa [same] using graph.home c'
  · intro c'
    by_cases same : c' = c
    · subst same
      simpa [ne.symm] using free
    · simpa [same, currents c' same] using graph.last c'
  · intro a
    by_cases hb : a = t
    · subst hb
      have := graph.waiting a
      rw [waits] at this
      cases i <;> simpa [Ipc.recv] using this
    · by_cases ha : a = e
      · subst ha
        have := graph.waiting a
        rw [was] at this
        cases i <;> simpa [hb, Ipc.wait, notBlocking] using this
      · simpa [ha, hb] using graph.waiting a
  · intro a
    by_cases hb : a = t
    · subst hb
      have := graph.flag a
      rw [waits] at this
      cases i <;> simpa [Ipc.recv] using this
    · by_cases ha : a = e
      · subst ha
        have := graph.flag a
        rw [was] at this
        cases i <;> simpa [hb, Ipc.wait, notBlocking] using this
      · simpa [ha, hb] using graph.flag a
  · intro a away
    have notE : a ≠ e := fun eq => away (eq ▸ homeE)
    have notT : a ≠ t := fun eq => away (eq ▸ home)
    simp [notE, notT]
  · show View.Stands cfg _ c (Function.update v.pc c (.run i.recv) c)
    rw [Function.update_self]
    cases i <;> simp [View.Stands, Ipc.recv]

/-- `clr_partner` in `reply`: the caller `a` may have another continuation now, and the callee
has none or is dead. -/
theorem unlink (graph : Graph cfg v) {e a : Fin n} {f : Option Cont} {g : Cont} {cur : Fin n} {p : Pc n}
    (isCurrent : v.current c = e) (linked : v.callee a = some e) (end_ : f = none ∨ f = some .dead)
    (kind : v.cont a = some g ∨ g = .sysFinish .aborted false ∨ g = .dead) (was : v.cont e ≠ some .blocking)
    (cpu : cfg.cpu cur = c) (chain : cur = a ∨ cur = e)
    (stands : View.Stands cfg { v with
      callee := Function.update v.callee a none
      cont := Function.update (Function.update v.cont a (some g)) e f
      current := Function.update v.current c cur } c p) :
    Graph cfg { v with
      callee := Function.update v.callee a none
      caller := Function.update v.caller e none
      cont := Function.update (Function.update v.cont a (some g)) e f
      current := Function.update v.current c cur
      pc := Function.update v.pc c p } := by
  have last : v.callee e = none := isCurrent ▸ graph.last c
  have homeE : cfg.cpu e = c := isCurrent ▸ graph.home c
  obtain ⟨isLocal, sameCpu, r, waits⟩ := graph.callee a e linked
  have homeA : cfg.cpu a = c := sameCpu.symm.trans homeE
  have callerE : v.caller e = some a := (graph.inverse a e).mp linked
  have ne : a ≠ e := by
    rintro rfl
    rw [last] at linked
    cases linked
  have callerOf : ∀ x, v.caller x ≠ some e := by
    intro x is
    rw [(graph.inverse e x).mpr is] at last
    cases last
  have onlyE : ∀ x, v.caller x = some a → x = e := by
    intro x is
    exact Option.some.inj (((graph.inverse a x).mpr is).symm.trans linked)
  have kind' : g ≠ .recvKern ∧ g ≠ .recvUser ∧ g ≠ .blocking ∧ g ≠ .idle ∧ g ≠ .sysIpcCall := by
    rcases kind with old | rfl | rfl
    · obtain rfl := Option.some.inj (waits.symm.trans old)
      simp
    · simp
    · simp
  have notIdleA : ¬ cfg.Idle a := fun idle => by
    rw [(graph.idle a).mpr idle] at waits
    cases waits
  have notIdleE : ¬ cfg.Idle e := by
    intro idle
    have := cfg.idle_subtype (cfg.cpu e)
    rw [← (idle : e = _), isLocal] at this
    cases this
  refine graph.of_links (c := c) ⟨?_, ends_unlink graph.ends a, ?_, ?_, ?_, ?_, ?_, ?_, ?_, ?_, graph.owner, graph.nodup,
    graph.unique, ?_, ?_⟩ ?_ (fun c' other => ⟨Function.update_of_ne other .., Function.update_of_ne other ..⟩) ?_
  · intro x y
    by_cases hx : x = a
    · subst hx
      by_cases hy : y = e
      · subst hy
        simp
      · have : v.caller y ≠ some x := fun is => hy (onlyE y is)
        simp [hy, this]
    · by_cases hy : y = e
      · subst hy
        have : v.callee x ≠ some y := fun is => hx (Option.some.inj (((graph.inverse x y).mp is).symm.trans callerE))
        simp [hx, this]
      · simpa [hx, hy] using graph.inverse x y
  · intro x y is
    by_cases hx : x = a
    · simp [hx] at is
    · have old : v.callee x = some y := by simpa [hx] using is
      have notE : x ≠ e := by
        rintro rfl
        rw [last] at old
        cases old
      obtain ⟨sub, cpu, r, cont⟩ := graph.callee x y old
      exact ⟨sub, cpu, r, by simpa [hx, notE] using cont⟩
  · intro x none
    by_cases hy : x = e
    · simp [hy]
    · by_cases hx : x = a
      · subst hx
        simp [hy] at none
      · simpa [hy] using graph.fresh x (by simpa [hx, hy] using none)
  · intro x is
    by_cases hy : x = e
    · subst hy
      rcases end_ with rfl | rfl <;> simp at is
    · by_cases hx : x = a
      · subst hx
        simp [hy, kind'.1] at is
      · obtain ⟨b, y, from_, cont⟩ := graph.kern x (by simpa [hx, hy] using is)
        have notE : b ≠ e := fun eq => callerOf x (eq ▸ from_)
        have notA : b ≠ a := fun eq => hy (onlyE x (eq ▸ from_))
        exact ⟨b, y, by simpa [hy] using from_, by simpa [notE, notA] using cont⟩
  · intro x is
    by_cases hy : x = e
    · subst hy
      rcases end_ with rfl | rfl <;> simp at is
    · by_cases hx : x = a
      · subst hx
        simp [hy, kind'.2.1] at is
      · obtain ⟨b, from_, cont, has⟩ := graph.user x (by simpa [hx, hy] using is)
        have notE : b ≠ e := fun eq => callerOf x (eq ▸ from_)
        have notA : b ≠ a := fun eq => hy (onlyE x (eq ▸ from_))
        exact ⟨b, by simpa [hy] using from_, by simpa [notE, notA] using cont, has⟩
  · intro x is
    by_cases hy : x = e
    · subst hy
      rcases end_ with rfl | rfl <;> simp at is
    · by_cases hx : x = a
      · subst hx
        simp [hy, kind'] at is
      · exact graph.call x (by simpa [hx, hy] using is)
  · intro x
    by_cases hy : x = e
    · subst hy
      rcases end_ with rfl | rfl <;> simpa using notIdleE
    · by_cases hx : x = a
      · subst hx
        simpa [hy, kind'] using notIdleA
      · simpa [hx, hy] using graph.idle x
  · intro c'
    by_cases same : c' = c
    · subst same
      simpa using cpu
    · simpa [same] using graph.home c'
  · intro c'
    by_cases same : c' = c
    · subst same
      rcases chain with rfl | rfl
      · simp
      · simpa [ne.symm] using last
    · have away : v.current c' ≠ a := fun eq => same ((graph.home c').symm.trans (eq ▸ homeA))
      simpa [same, away] using graph.last c'
  · intro x
    by_cases hy : x = e
    · subst hy
      have := graph.waiting x
      rcases end_ with rfl | rfl <;> simpa [was] using this
    · by_cases hx : x = a
      · subst hx
        have := graph.waiting x
        rw [waits] at this
        simpa [hy, kind'] using this
      · simpa [hx, hy] using graph.waiting x
  · intro x
    by_cases hy : x = e
    · subst hy
      have := graph.flag x
      rcases end_ with rfl | rfl <;> simpa [was] using this
    · by_cases hx : x = a
      · subst hx
        have := graph.flag x
        rw [waits] at this
        simpa [hy, kind'] using this
      · simpa [hx, hy] using graph.flag x
  · intro x away
    have notE : x ≠ e := fun eq => away (eq ▸ homeE)
    have notA : x ≠ a := fun eq => away (eq ▸ homeA)
    simp [notE, notA]
  · show View.Stands cfg _ c (Function.update v.pc c p c)
    rw [Function.update_self]
    refine stands.congr ?_ rfl fun _ _ => ⟨rfl, rfl⟩
    simpa using cpu

/-- An EC without caller replies. -/
theorem retire (graph : Graph cfg v) {e : Fin n} {f : Option Cont} {b : Bool} (isCurrent : v.current c = e)
    (alone : v.caller e = none) (end_ : f = none ∨ f = some .dead) (was : v.cont e ≠ some .blocking)
    (notIdle : v.cont e ≠ some .idle) :
    Graph cfg { v with cont := Function.update v.cont e f, pc := Function.update v.pc c (.schedule b) } := by
  have last : v.callee e = none := isCurrent ▸ graph.last c
  have homeE : cfg.cpu e = c := isCurrent ▸ graph.home c
  have callerOf : ∀ x, v.caller x ≠ some e := by
    intro x is
    rw [(graph.inverse e x).mpr is] at last
    cases last
  refine graph.of_links (c := c) ⟨graph.inverse, graph.ends, ?_, ?_, ?_, ?_, ?_, ?_, graph.home, graph.last, graph.owner,
    graph.nodup, graph.unique, ?_, ?_⟩ ?_ (fun c' ne => ⟨rfl, Function.update_of_ne ne ..⟩) ?_
  · intro x y is
    have notE : x ≠ e := by
      rintro rfl
      rw [last] at is
      cases is
    simpa [notE] using graph.callee x y is
  · intro x none
    by_cases hx : x = e
    · subst hx
      exact alone
    · exact graph.fresh x (by simpa [hx] using none)
  · intro x is
    by_cases hx : x = e
    · subst hx
      rcases end_ with rfl | rfl <;> simp at is
    · obtain ⟨b, y, from_, cont⟩ := graph.kern x (by simpa [hx] using is)
      have notE : b ≠ e := fun eq => callerOf x (eq ▸ from_)
      exact ⟨b, y, from_, by simpa [notE] using cont⟩
  · intro x is
    by_cases hx : x = e
    · subst hx
      rcases end_ with rfl | rfl <;> simp at is
    · obtain ⟨b, from_, cont, has⟩ := graph.user x (by simpa [hx] using is)
      have notE : b ≠ e := fun eq => callerOf x (eq ▸ from_)
      exact ⟨b, from_, by simpa [notE] using cont, has⟩
  · intro x is
    by_cases hx : x = e
    · subst hx
      rcases end_ with rfl | rfl <;> simp at is
    · exact graph.call x (by simpa [hx] using is)
  · intro x
    by_cases hx : x = e
    · subst hx
      have : ¬ cfg.Idle x := fun idle => notIdle ((graph.idle x).mpr idle)
      rcases end_ with rfl | rfl <;> simpa using this
    · simpa [hx] using graph.idle x
  · intro x
    by_cases hx : x = e
    · subst hx
      have := graph.waiting x
      rcases end_ with rfl | rfl <;> simpa [was] using this
    · simpa [hx] using graph.waiting x
  · intro x
    by_cases hx : x = e
    · subst hx
      have := graph.flag x
      rcases end_ with rfl | rfl <;> simpa [was] using this
    · simpa [hx] using graph.flag x
  · intro x away
    have notE : x ≠ e := fun eq => away (eq ▸ homeE)
    simp [notE]
  · show View.Stands cfg _ c (Function.update v.pc c (.schedule b) c)
    rw [Function.update_self]
    trivial

/-- The current EC waits for a semaphore. -/
theorem wait (graph : Graph cfg v) (active : v.Active c) (i : Nat) {timed : Bool} {episode : Nat} :
    Graph cfg { v with
      cont := Function.update v.cont (v.current c) (some .blocking)
      queued := Function.update v.queued (v.current c) true
      queue := Function.update v.queue i (v.queue i ++ [v.current c])
      pc := Function.update v.pc c (.dnBlock i timed episode) } := by
  obtain ⟨old, was, notBlocking, notDead, notIdle⟩ := active
  have last := graph.last c
  have homeE := graph.home c
  obtain ⟨e, isCurrent⟩ : ∃ e, v.current c = e := ⟨_, rfl⟩
  rw [isCurrent] at last homeE was
  simp only [isCurrent]
  have callerOf : ∀ x, v.caller x ≠ some e := by
    intro x is
    rw [(graph.inverse e x).mpr is] at last
    cases last
  have outside : ∀ j, e ∉ v.queue j := by
    intro j member
    have := (graph.waiting e).mpr ⟨j, member⟩
    exact notBlocking (Option.some.inj (was.symm.trans this))
  refine graph.of_links (c := c) ⟨graph.inverse, graph.ends, ?_, ?_, ?_, ?_, ?_, ?_, graph.home, graph.last, graph.owner,
    ?_, ?_, ?_, ?_⟩ ?_ (fun c' ne => ⟨rfl, Function.update_of_ne ne ..⟩) ?_
  · intro x y is
    have notE : x ≠ e := by
      rintro rfl
      rw [last] at is
      cases is
    simpa [notE] using graph.callee x y is
  · intro x none
    by_cases hx : x = e
    · simp [hx] at none
    · exact graph.fresh x (by simpa [hx] using none)
  · intro x is
    by_cases hx : x = e
    · simp [hx] at is
    · obtain ⟨b, y, from_, cont⟩ := graph.kern x (by simpa [hx] using is)
      have notE : b ≠ e := fun eq => callerOf x (eq ▸ from_)
      exact ⟨b, y, from_, by simpa [notE] using cont⟩
  · intro x is
    by_cases hx : x = e
    · simp [hx] at is
    · obtain ⟨b, from_, cont, has⟩ := graph.user x (by simpa [hx] using is)
      have notE : b ≠ e := fun eq => callerOf x (eq ▸ from_)
      exact ⟨b, from_, by simpa [notE] using cont, has⟩
  · intro x is
    by_cases hx : x = e
    · simp [hx] at is
    · exact graph.call x (by simpa [hx] using is)
  · intro x
    by_cases hx : x = e
    · subst hx
      have : ¬ cfg.Idle x := fun idle => notIdle (Option.some.inj (was.symm.trans ((graph.idle x).mpr idle)))
      simpa using this
    · simpa [hx] using graph.idle x
  · intro j
    by_cases hj : j = i
    · subst hj
      have apart : ∀ x ∈ v.queue j, x ≠ e := fun x member eq => outside j (eq ▸ member)
      simpa [List.nodup_append] using ⟨graph.nodup j, apart⟩
    · simpa [hj] using graph.nodup j
  · intro j j' x mem mem'
    by_cases hx : x = e
    · subst hx
      have here : ∀ j, x ∈ Function.update v.queue i (v.queue i ++ [x]) j → j = i := by
        intro j member
        by_contra hj
        rw [Function.update_of_ne hj] at member
        exact outside j member
      exact (here j mem).trans (here j' mem').symm
    · have old : ∀ j, x ∈ Function.update v.queue i (v.queue i ++ [e]) j → x ∈ v.queue j := by
        intro j member
        by_cases hj : j = i
        · subst hj
          simpa [hx] using member
        · simpa [hj] using member
      exact graph.unique j j' x (old j mem) (old j' mem')
  · intro x
    by_cases hx : x = e
    · subst hx
      refine ⟨fun _ => ⟨i, by simp⟩, fun _ => by simp⟩
    · have same : ∀ j, x ∈ Function.update v.queue i (v.queue i ++ [e]) j ↔ x ∈ v.queue j := by
        intro j
        by_cases hj : j = i
        · subst hj
          simp [hx]
        · simp [hj]
      simpa [hx, same] using graph.waiting x
  · intro x
    by_cases hx : x = e
    · simp [hx]
    · simpa [hx] using graph.flag x
  · intro x away
    have notE : x ≠ e := fun eq => away (eq ▸ homeE)
    simp [notE]
  · show View.Stands cfg _ c (Function.update v.pc c _ c)
    rw [Function.update_self]
    refine Or.inl ?_
    show Function.update v.cont e _ (v.current c) = _
    rw [isCurrent, Function.update_self]

/-- What other CPUs stand on when a blocked EC is unblocked -/
theorem stands_unblock {e : Fin n} {f : Cont} {p : Pc n} {c' : Fin k} (waits : v.cont e = some .blocking)
    (dn : v.current c' = e → f = .sysFinish .success true) (stands : v.Stands cfg c' p) :
    View.Stands cfg { v with cont := Function.update v.cont e (some f) } c' p := by
  have other : ∀ {g : Cont}, v.cont (v.current c') = some g → g ≠ .blocking → v.current c' ≠ e := by
    rintro g is ne eq
    rw [eq, waits] at is
    exact ne (Option.some.inj is).symm
  have keep : ∀ {g : Cont}, v.cont (v.current c') = some g → g ≠ .blocking →
      Function.update v.cont e (some f) (v.current c') = some g := by
    intro g is ne
    rw [Function.update_of_ne (other is ne)]
    exact is
  have active : v.Active c' → View.Active { v with cont := Function.update v.cont e (some f) } c' := by
    rintro ⟨g, is, ne, rest⟩
    exact ⟨g, keep is ne, ne, rest⟩
  have busy : ∀ {t : Fin n}, v.cont t ≠ none → Function.update v.cont e (some f) t ≠ none := by
    intro t has
    by_cases ht : t = e
    · simp [ht]
    · rwa [Function.update_of_ne ht]
  have back : ∀ b, v.StandsBack cfg c' b →
      View.StandsBack cfg { v with cont := Function.update v.cont e (some f) } c' b := by
    intro b
    cases b with
    | finish s => exact active
    | ret r => exact active
    | idle => exact fun is => keep is (by decide)
    | help t => exact fun ⟨act, cpu, has⟩ => ⟨active act, cpu, busy has⟩
    | pause => exact active
    | hazard g =>
        cases g with
        | user r => exact active
        | idle => exact fun is => keep is (by decide)
  cases p with
  | boot => trivial
  | schedule b => trivial
  | loop t => trivial
  | user => exact active stands
  | pause => exact active stands
  | finish s => exact active stands
  | ret r => exact active stands
  | halt => exact keep stands (by decide)
  | hazard g =>
      cases g with
      | user r => exact active stands
      | idle => exact keep stands (by decide)
  | run g => exact ⟨keep stands.1 stands.2, stands.2⟩
  | ipc i => exact ⟨active stands.1, stands.2⟩
  | help t => exact ⟨active stands.1, stands.2.1, busy stands.2.2⟩
  | kill =>
      obtain ⟨g, is, ne, rest⟩ := stands
      exact ⟨g, keep is ne, ne, rest⟩
  | activate x a => exact stands
  | blockSc x a i => exact stands
  | dnBlock i t x =>
      show Function.update v.cont e (some f) (v.current c') = _ ∨ Function.update v.cont e (some f) (v.current c') = _
      by_cases here : v.current c' = e
      · refine Or.inr ?_
        rw [here, Function.update_self, dn here]
      · rw [Function.update_of_ne here]
        exact stands
  | wake x b => exact back b stands
  | requeue t b => exact back b stands

/-- `unblock`: a waiting EC leaves the queue of its semaphore. -/
theorem unblock (graph : Graph cfg v) {i : Nat} {e : Fin n} {rest : List (Fin n)} {f : Cont} {p : Pc n}
    (perm : (v.queue i).Perm (e :: rest)) (kind : f = .sysFinish .success true ∨ f = .sysFinish .timeout false)
    (dn : ∀ c', v.current c' = e → f = .sysFinish .success true) (stands : v.Stands cfg c p) :
    Graph cfg { v with
      cont := Function.update v.cont e (some f)
      queued := Function.update v.queued e false
      queue := Function.update v.queue i rest
      pc := Function.update v.pc c p } := by
  have member : e ∈ v.queue i := perm.mem_iff.mpr List.mem_cons_self
  have waits : v.cont e = some .blocking := (graph.waiting e).mpr ⟨i, member⟩
  obtain ⟨gone, nodup⟩ := List.nodup_cons.mp (perm.nodup_iff.mp (graph.nodup i))
  have kind' : f ≠ .recvKern ∧ f ≠ .recvUser ∧ f ≠ .blocking ∧ f ≠ .idle ∧ f ≠ .sysIpcCall := by
    rcases kind with rfl | rfl <;> simp
  have waitsFor : ∀ x y, v.caller x = some y → y ≠ e := by
    rintro x y is rfl
    obtain ⟨-, -, r, cont⟩ := graph.callee y x ((graph.inverse y x).mpr is)
    rw [waits] at cont
    cases cont
  refine ⟨⟨graph.inverse, graph.ends, ?_, ?_, ?_, ?_, ?_, ?_, graph.home, graph.last, graph.owner, ?_, ?_, ?_, ?_⟩, ?_⟩
  · intro x y is
    obtain ⟨sub, cpu, r, cont⟩ := graph.callee x y is
    have notE : x ≠ e := waitsFor y x ((graph.inverse x y).mp is)
    exact ⟨sub, cpu, r, by simpa [notE] using cont⟩
  · intro x none
    by_cases hx : x = e
    · simp [hx] at none
    · exact graph.fresh x (by simpa [hx] using none)
  · intro x is
    by_cases hx : x = e
    · simp [hx, kind'] at is
    · obtain ⟨b, y, from_, cont⟩ := graph.kern x (by simpa [hx] using is)
      exact ⟨b, y, from_, by simpa [waitsFor x b from_] using cont⟩
  · intro x is
    by_cases hx : x = e
    · simp [hx, kind'] at is
    · obtain ⟨b, from_, cont, has⟩ := graph.user x (by simpa [hx] using is)
      exact ⟨b, from_, by simpa [waitsFor x b from_] using cont, has⟩
  · intro x is
    by_cases hx : x = e
    · simp [hx, kind'] at is
    · exact graph.call x (by simpa [hx] using is)
  · intro x
    by_cases hx : x = e
    · subst hx
      have := graph.idle x
      rw [waits] at this
      simpa [kind'] using this
    · simpa [hx] using graph.idle x
  · intro j
    by_cases hj : j = i
    · subst hj
      simpa using nodup
    · simpa [hj] using graph.nodup j
  · have old : ∀ j x, x ∈ Function.update v.queue i rest j → x ∈ v.queue j := by
      intro j x mem
      by_cases hj : j = i
      · subst hj
        exact perm.mem_iff.mpr (List.mem_cons_of_mem e (by simpa using mem))
      · simpa [hj] using mem
    exact fun j j' x mem mem' => graph.unique j j' x (old j x mem) (old j' x mem')
  · intro x
    by_cases hx : x = e
    · subst hx
      have : ∀ j, x ∉ Function.update v.queue i rest j := by
        intro j mem
        by_cases hj : j = i
        · subst hj
          exact gone (by simpa using mem)
        · rw [Function.update_of_ne hj] at mem
          exact hj (graph.unique j i x mem member)
      simpa [kind'] using this
    · have same : ∀ j, x ∈ Function.update v.queue i rest j ↔ x ∈ v.queue j := by
        intro j
        by_cases hj : j = i
        · subst hj
          rw [Function.update_self, perm.mem_iff, List.mem_cons]
          exact ⟨Or.inr, fun h => h.resolve_left hx⟩
        · rw [Function.update_of_ne hj]
      simpa [hx, same] using graph.waiting x
  · intro x
    by_cases hx : x = e
    · simp [hx, kind']
    · simpa [hx] using graph.flag x
  · intro c'
    by_cases same : c' = c
    · subst same
      show View.Stands cfg _ c' (Function.update v.pc c' p c')
      rw [Function.update_self]
      exact (stands_unblock waits (dn c') stands).congr (graph.home c') rfl fun _ _ => ⟨rfl, rfl⟩
    · show View.Stands cfg _ c' (Function.update v.pc c p c')
      rw [Function.update_of_ne same]
      exact (stands_unblock waits (dn c') (graph.pc c')).congr (graph.home c') rfl fun _ _ => ⟨rfl, rfl⟩

/-- The scheduler picks another SC. -/
theorem pick (graph : Graph cfg v) {s : Nat} {a : After} (home : cfg.scCpu s = c) :
    Graph cfg { v with sc := Function.update v.sc c s, pc := Function.update v.pc c (.activate (cfg.ec s) a) } := by
  refine graph.of_links (c := c) ⟨graph.inverse, graph.ends, graph.callee, graph.fresh, graph.kern, graph.user, graph.call,
    graph.idle, graph.home, graph.last, ?_, graph.nodup, graph.unique, graph.waiting, graph.flag⟩
    (fun _ _ => ⟨rfl, rfl⟩) (fun c' ne => ⟨rfl, Function.update_of_ne ne ..⟩) ?_
  · intro c'
    by_cases same : c' = c
    · subst same
      simpa using home
    · simpa [same] using graph.owner c'
  · show View.Stands cfg _ c (Function.update v.pc c _ c)
    rw [Function.update_self]
    exact home

end Graph

/-! ## The operations -/

/-- The faults of the IPC path -/
def Fault.Partner : Fault → Prop
  | .nullCont | .nullPartner | .endless | .recv | .stateSave | .replyLocal => True
  | _ => False

/-- The result has a graph, or another assertion failed. -/
abbrev KeepsGraph (cfg : Config n k) (r : Result n k) : Prop :=
  Meets (fun f => ¬ f.Partner) (fun m => Graph cfg m.view) r

namespace Machine

variable {cfg : Config n k} {m : Machine n k} {c : Fin k}

theorem graph_goto (graph : Graph cfg m.view) {p : Pc n} (stands : m.view.Stands cfg c p) :
    Graph cfg (m.goto c p).view := by
  rw [view_goto]
  exact graph.goto stands

theorem view_setPartner (m : Machine n k) (c : Fin k) (e f : Fin n) : (m.setPartner c e f).view = { m.view with
    callee := Function.update m.view.callee e (some f)
    caller := Function.update m.view.caller f (some e) } := by
  unfold setPartner
  rw [view_setCpu_of _ c (fun x => { x with donations := unsigned (x.donations + 1) }) fun x => ⟨rfl, rfl, rfl⟩, view_caller,
    view_callee]

theorem makeCurrent_eq {e : Fin n} {f : Cont} (cont : (m.ec e).cont = some f) :
    m.makeCurrent c e = .ok (m.setCpu c fun x => { x with current := e, pc := .run f }) := by
  simp only [makeCurrent, cont]

theorem keeps_makeCurrent (graph : Graph cfg m.view) {e : Fin n} (home : cfg.cpu e = c) (last : (m.ec e).callee = none)
    (ready : (m.ec e).blocked = false) : KeepsGraph cfg (m.makeCurrent c e) := by
  cases cont : (m.ec e).cont with
  | none => simp [Ec.blocked, cont] at ready
  | some f =>
      have notBlocking : f ≠ .blocking := by
        rintro rfl
        simp [Ec.blocked, cont] at ready
      rw [makeCurrent_eq cont]
      show Graph cfg (m.setCpu c _).view
      rw [view_setCpu, update_sc]
      exact graph.enter home last cont notBlocking

theorem keeps_rendezvous (graph : Graph cfg m.view) (active : m.view.Active c) {i : Ipc} {t : Fin n}
    (utcb : i = .call → cfg.Utcb (m.self c)) (waits : (m.ec t).cont = none) (isLocal : cfg.subtype t = .ecLocal)
    (home : cfg.cpu t = c) : KeepsGraph cfg (m.rendezvous c i t) := by
  unfold rendezvous
  rw [makeCurrent_eq (f := i.recv) (by simp)]
  show Graph cfg (Machine.view _)
  rw [view_setCpu, update_sc, view_cont, view_setPartner, view_cont]
  exact graph.link active utcb waits isLocal home

theorem keeps_activate (graph : Graph cfg m.view) {e : Fin n} {a : After} (home : cfg.cpu e = c) :
    KeepsGraph cfg (m.activate c e a) := by
  have enough : Fintype.card (Fin n) ≤ n := by rw [Fintype.card_fin]
  obtain ⟨f, d, found⟩ := follow_of_ends (graph.ends e) enough
  obtain ⟨reached, last⟩ := follow_eq_some found
  have homeF : cfg.cpu f = c := (graph.home_hop reached).trans home
  have same : (m.setCpu c fun x => { x with donations := unsigned d, entry := e }).view = m.view :=
    m.view_setCpu_of c _ fun x => ⟨rfl, rfl, rfl⟩
  unfold activate
  rw [show follow (fun x => (m.ec x).callee) n e = some (f, d) from found]
  dsimp only
  split
  · refine graph_goto ?_ ⟨homeF, last⟩
    rw [same]
    exact graph
  · rename_i ready
    refine keeps_makeCurrent ?_ homeF last (by simpa using ready)
    rw [same]
    exact graph

theorem setEc_eq_self {e : Fin n} {f : Ec n → Ec n} (same : f (m.ec e) = m.ec e) : m.setEc e f = m := by
  unfold setEc
  rw [same, Function.update_eq_self]

/-- `reply` to the caller `a`, which continues with `g` -/
theorem keeps_reply_caller (graph : Graph cfg m.view) {a : Fin n} {f : Option Cont} {g : Cont}
    (caller : (m.ec (m.self c)).caller = some a) (end_ : f = none ∨ f = some .dead)
    (kind : (m.ec a).cont = some g ∨ g = .sysFinish .aborted false ∨ g = .dead)
    (was : (m.ec (m.self c)).cont ≠ some .blocking) :
    KeepsGraph cfg ((m.setEc a fun x => { x with cont := some g }).reply cfg c f) := by
  have linked : m.view.callee a = some (m.self c) := (graph.inverse a (m.self c)).mpr caller
  obtain ⟨isLocal, sameCpu, r, waits⟩ := graph.callee a _ linked
  have home : cfg.cpu a = c := sameCpu.symm.trans (graph.home c)
  have ne : a ≠ m.self c := by
    intro eq
    have last : m.view.callee (m.self c) = none := graph.last c
    rw [← eq, linked] at last
    cases last
  obtain ⟨e, isSelf⟩ : ∃ e, m.self c = e := ⟨_, rfl⟩
  have self' : (m.setEc a fun x => { x with cont := some g }).self c = e := isSelf
  rw [isSelf] at caller was linked isLocal ne
  generalize made : ((m.setEc a fun x => { x with cont := some g }).setEc e fun x => { x with cont := f }) = m₁
  have view₁ : m₁.view = { m.view with cont := Function.update (Function.update m.view.cont a (some g)) e f } := by
    rw [← made, view_cont, view_cont]
  have callerE : (m₁.ec e).caller = some a := by
    rw [← made]
    simpa [ne.symm] using caller
  have calleeA : (m₁.ec a).callee = some e := by
    have : m₁.view.callee a = m.view.callee a := by rw [view₁]
    exact this.trans linked
  have cpus : m₁.cpu = m.cpu := by rw [← made]; rfl
  generalize cleared : ((m₁.setEc e fun x => { x with caller := none }).setEc a fun x => { x with callee := none }).setCpu c
    (fun x => { x with donations := decrement x.donations }) = m₂
  have view₂ : m₂.view = { m.view with
      callee := Function.update m.view.callee a none
      caller := Function.update m.view.caller e none
      cont := Function.update (Function.update m.view.cont a (some g)) e f } := by
    rw [← cleared, view_setCpu_of _ c (fun x => { x with donations := decrement x.donations })
      fun x => ⟨rfl, rfl, rfl⟩, view_callee, view_caller, view₁]
  have replied : (m.setEc a fun x => { x with cont := some g }).reply cfg c f =
      if (m.cpu c).donations ≠ 0 then m₂.makeCurrent c a
      else .ok (m₂.goto c (.activate (cfg.ec (m₂.cpu c).sc) .schedule)) := by
    simp only [reply, self', made, callerE, isLocal, clrPartner, calleeA, cleared, cpus, ne_eq, not_true_eq_false, if_false]
    by_cases none : (m.cpu c).donations = 0
    · simp [none]
    · simp [none]
  rw [replied]
  split
  · have contA : (m₂.ec a).cont = some g := by
      have : m₂.view.cont a = some g := by
        rw [view₂]
        simp [ne]
      exact this
    rw [makeCurrent_eq contA]
    show Graph cfg (m₂.setCpu c _).view
    rw [view_setCpu, update_sc, view₂]
    refine graph.unlink isSelf linked end_ kind was home (Or.inl rfl) ⟨?_, ?_⟩
    · simp [ne]
    · rcases kind with old | rfl | rfl
      · obtain rfl := Option.some.inj (waits.symm.trans old)
        simp
      · simp
      · simp
  · show Graph cfg (m₂.goto c _).view
    rw [view_goto, view₂]
    have sc : (m₂.cpu c).sc = (m.cpu c).sc := by
      rw [← cleared]
      simp [cpus]
    have owner : cfg.cpu (cfg.ec (m₂.cpu c).sc) = c := by
      rw [sc]
      exact graph.owner c
    have := graph.unlink (p := .activate (cfg.ec (m₂.cpu c).sc) .schedule) isSelf linked end_ kind was
      (isSelf ▸ graph.home c) (Or.inr rfl) owner
    rwa [show Function.update m.view.current c e = m.view.current by rw [← isSelf]; exact update_current m c] at this

theorem keeps_reply (graph : Graph cfg m.view) {f : Option Cont} (end_ : f = none ∨ f = some .dead)
    (was : (m.ec (m.self c)).cont ≠ some .blocking) (notIdle : (m.ec (m.self c)).cont ≠ some .idle) :
    KeepsGraph cfg (m.reply cfg c f) := by
  cases caller : (m.ec (m.self c)).caller with
  | some a =>
      obtain ⟨-, -, r, waits⟩ := graph.callee a _ ((graph.inverse a (m.self c)).mpr caller)
      have same : (m.setEc a fun x => { x with cont := some (.retUser r) }) = m := by
        refine setEc_eq_self ?_
        rw [← show (m.ec a).cont = some (.retUser r) from waits]
      have kept := keeps_reply_caller graph caller end_ (Or.inl waits) was
      rwa [same] at kept
  | none =>
      have alone : ((m.setEc (m.self c) fun x => { x with cont := f }).ec (m.self c)).caller = none := by
        simpa using caller
      unfold reply
      simp only [alone]
      show Graph cfg (Machine.view _)
      rw [view_goto]
      show Graph cfg { (m.setEc (m.self c) fun x => { x with cont := f }).view with pc := _ }
      rw [view_cont]
      exact graph.retire rfl caller end_ was notIdle

theorem keeps_kill (graph : Graph cfg m.view) (was : (m.ec (m.self c)).cont ≠ some .blocking)
    (notIdle : (m.ec (m.self c)).cont ≠ some .idle) : KeepsGraph cfg (m.kill cfg c) := by
  unfold kill
  cases caller : (m.ec (m.self c)).caller with
  | none => exact keeps_reply graph (Or.inr rfl) was notIdle
  | some a =>
      refine keeps_reply_caller graph caller (Or.inr rfl) ?_ was
      split
      · exact Or.inr (Or.inl rfl)
      · exact Or.inr (Or.inr rfl)

theorem keeps_sysIpcReply (graph : Graph cfg m.view) (was : (m.ec (m.self c)).cont ≠ some .blocking)
    (notIdle : (m.ec (m.self c)).cont ≠ some .idle) : KeepsGraph cfg (m.sysIpcReply cfg c) := by
  unfold sysIpcReply
  cases caller : (m.ec (m.self c)).caller with
  | none => exact keeps_reply graph (Or.inl rfl) was notIdle
  | some a =>
      obtain ⟨-, -, r, waits⟩ := graph.callee a _ ((graph.inverse a (m.self c)).mpr caller)
      simp only [show (m.ec a).cont = some (.retUser r) from waits]
      exact keeps_reply graph (Or.inl rfl) was notIdle

theorem graph_refuse (graph : Graph cfg m.view) (active : m.view.Active c) (i : Ipc) (s : Status) :
    Graph cfg (m.refuse c i s).view := by
  cases i with
  | call => exact graph_goto graph active
  | msg x =>
      obtain ⟨f, here, notBlocking, -, notIdle⟩ := active
      exact graph_goto graph ⟨f, here, notBlocking, notIdle⟩

theorem keeps_ipc (graph : Graph cfg m.view) (active : m.view.Active c) {i : Ipc} (utcb : i = .call → cfg.Utcb (m.self c))
    (pt : Option (Fin n)) (noWait : Bool) : KeepsGraph cfg (m.ipc cfg c i pt noWait) := by
  cases pt with
  | none => exact graph_refuse graph active i .badCap
  | some t =>
      unfold ipc
      dsimp only
      split
      · exact graph_refuse graph active i .badCap
      · rename_i isLocal
        split
        · exact graph_refuse graph active i .badCpu
        · rename_i sameCpu
          have home : cfg.cpu t = c := (not_not.mp sameCpu).symm.trans (graph.home c)
          split
          · rename_i waits
            exact keeps_rendezvous graph active utcb waits (not_not.mp isLocal) home
          · rename_i busy
            split
            · exact graph_goto graph active
            · split
              · exact graph_refuse graph active i .aborted
              · show Graph cfg (Machine.view _)
                rw [view_goto, view_cont]
                refine graph.setCont active ?_ ?_ ⟨?_, home, ?_⟩
                · cases i <;> simp [Ipc.again]
                · cases i with
                  | call => exact fun _ => utcb rfl
                  | msg x => exact fun eq => (nomatch eq)
                · refine ⟨i.again, by simp, ?_⟩
                  cases i <;> simp [Ipc.again]
                · show Function.update m.view.cont (m.view.current c) (some i.again) t ≠ none
                  by_cases self : t = m.view.current c
                  · simp [self]
                  · rw [Function.update_of_ne self]
                    exact busy

theorem utcb_of_local {e : Fin n} (isLocal : cfg.subtype e = .ecLocal) : cfg.Utcb e := by
  refine ⟨fun idle => ?_, Or.inl isLocal⟩
  have := cfg.idle_subtype (cfg.cpu e)
  rw [← (idle : e = _), isLocal] at this
  cases this

theorem keeps_recvKern (graph : Graph cfg m.view) (cont : (m.ec (m.self c)).cont = some .recvKern) :
    KeepsGraph cfg (m.recv cfg c .recvKern) := by
  obtain ⟨a, x, caller, waits⟩ := graph.kern (m.self c) cont
  obtain ⟨isLocal, -⟩ := graph.callee a _ ((graph.inverse a (m.self c)).mpr caller)
  have ready : cfg.Utcb (m.self c) ∧ cfg.subtype (m.self c) = .ecLocal ∧ (m.ec (m.self c)).cont = some .recvKern :=
    ⟨utcb_of_local isLocal, isLocal, cont⟩
  have received : m.recv cfg c .recvKern = .ok (m.goto c (.ret .hypercall)) := by
    simp only [recv, show (m.ec (m.self c)).caller = some a from caller, if_pos ready,
      show (m.ec a).cont = some (.retUser (.msg x)) from waits]
  rw [received]
  exact graph_goto graph ⟨.recvKern, cont, by decide, by decide, by decide⟩

theorem keeps_recvUser (graph : Graph cfg m.view) (cont : (m.ec (m.self c)).cont = some .recvUser) :
    KeepsGraph cfg (m.recv cfg c .recvUser) := by
  obtain ⟨a, caller, waits, utcb⟩ := graph.user (m.self c) cont
  obtain ⟨isLocal, -⟩ := graph.callee a _ ((graph.inverse a (m.self c)).mpr caller)
  have ready : cfg.Utcb (m.self c) ∧ cfg.subtype (m.self c) = .ecLocal ∧ (m.ec (m.self c)).cont = some .recvUser :=
    ⟨utcb_of_local isLocal, isLocal, cont⟩
  have received : m.recv cfg c .recvUser = .ok (m.goto c (.ret .hypercall)) := by
    simp only [recv, show (m.ec (m.self c)).caller = some a from caller, if_pos ready,
      show (m.ec a).cont = some (.retUser .hypercall) from waits, if_pos utcb]
  rw [received]
  exact graph_goto graph ⟨.recvUser, cont, by decide, by decide, by decide⟩

theorem graph_finish (graph : Graph cfg m.view) (active : m.view.Active c) (s : Status) :
    Graph cfg (m.finish c s).view := by
  unfold finish
  dsimp only
  split
  · have same : ∀ i, ((m.setSm i fun x => { x with finished := x.finished + 1 }).setEc (m.self c)
        fun x => { x with token := none }).view = m.view := by
      intro i
      rw [view_setEc, update_callee, update_caller, update_cont, update_queued, view_setSm, update_queue]
    refine graph_goto ?_ ?_
    · rw [same]
      exact graph
    · rw [same]
      exact active
  · exact graph_goto graph active

theorem keeps_start (graph : Graph cfg m.view) {f : Cont} (cont : (m.ec (m.self c)).cont = some f)
    (notBlocking : f ≠ .blocking) : KeepsGraph cfg (m.start cfg c f) := by
  have active : f ≠ .dead → f ≠ .idle → m.view.Active c := fun dead idle => ⟨f, cont, notBlocking, dead, idle⟩
  cases f with
  | retUser r => exact graph_goto graph (active nofun nofun)
  | recvKern => exact keeps_recvKern graph cont
  | recvUser => exact keeps_recvUser graph cont
  | sendMsg x => exact graph_goto graph ⟨active nofun nofun, nofun⟩
  | sysIpcCall => exact graph_goto graph ⟨active nofun nofun, fun _ => graph.call _ cont⟩
  | sysFinish s clr =>
      cases clr with
      | false => exact graph_goto graph (active nofun nofun)
      | true =>
          have same : (m.setEc (m.self c) fun x => { x with timeout := none }).view = m.view :=
            view_setEc_of _ _ _ fun x => ⟨rfl, rfl, rfl, rfl⟩
          show Graph cfg (Machine.view _)
          refine graph_goto ?_ ?_
          · rw [if_pos rfl, same]
            exact graph
          · rw [if_pos rfl, same]
            exact active nofun nofun
  | dead => exact graph_goto graph ⟨.dead, cont, nofun, nofun⟩
  | blocking => exact absurd rfl notBlocking
  | idle =>
      show Graph cfg (Machine.view _)
      refine graph_goto graph ?_
      split
      · exact cont
      · exact cont

/-- The result has the same view, or an assertion outside of the IPC path failed. -/
abbrev KeepsView (m : Machine n k) (r : Result n k) : Prop :=
  Meets (fun f => ¬ f.Partner) (fun m' => m'.view = m.view) r

theorem view_readyEnqueue (m : Machine n k) (c : Fin k) (s t : Nat) : KeepsView m (m.readyEnqueue cfg c s t) := by
  unfold readyEnqueue
  split
  · exact id
  · split
    · exact id
    · show (m.putReady cfg c s t).view = _
      rw [putReady, view_setSc, view_setCpu, update_current, update_sc, update_pc]

theorem view_releaseEnqueue (m : Machine n k) (s : Nat) : KeepsView m (m.releaseEnqueue cfg s) := by
  unfold releaseEnqueue
  split
  · exact id
  · show (m.putRelease cfg s).view = _
    rw [putRelease, view_setSc, view_setCpu, update_current, update_sc, update_pc]

theorem view_unblock (m : Machine n k) (c : Fin k) (s : Nat) : KeepsView m (m.unblock cfg c s) := by
  unfold unblock
  split
  · exact view_readyEnqueue m c s m.now
  · exact view_releaseEnqueue m s

theorem view_enqueueSc (m : Machine n k) (c : Fin k) (e : Fin n) : KeepsView m (m.enqueueSc c e) := by
  unfold enqueueSc
  split
  · exact id
  · show (m.putQueue e (m.cpu c).sc).view = _
    rw [putQueue, view_setSc, view_setEc, update_callee, update_caller, update_cont, update_queued]

theorem keeps_schedule (graph : Graph cfg m.view) (b : Bool) : KeepsGraph cfg (m.schedule cfg c b) := by
  unfold schedule
  dsimp only
  split
  · exact id
  · generalize made : ((m.setSc (m.cpu c).sc _).setCpu c _) = m₁
    have same : m₁.view = m.view := by
      rw [← made, view_setCpu, update_current, update_sc, update_pc, view_setSc]
    split
    · refine graph_goto ?_ trivial
      rw [same]
      exact graph
    · refine Meets.map ((view_readyEnqueue m₁ c _ _).mono fun m' view => ?_)
      refine graph_goto ?_ trivial
      rw [view, same]
      exact graph

theorem keeps_dispatch (graph : Graph cfg m.view) (t : Nat) : KeepsGraph cfg (m.dispatch cfg c t) := by
  unfold dispatch
  dsimp only
  split
  · exact id
  · split
    · exact id
    · rename_i home
      split
      · exact id
      · show Graph cfg (Machine.view _)
        rw [view_setCpu, update_current, view_setSc]
        exact graph.pick (not_not.mp home)

theorem graph_after (graph : Graph cfg m.view) (a : After) : Graph cfg (m.after c a).view := by
  cases a with
  | schedule => exact graph_goto graph trivial
  | loop t =>
      rw [after, view_setCpu, update_current, update_sc]
      exact graph.goto (p := .loop t) trivial

theorem keeps_blockSc (graph : Graph cfg m.view) {e : Fin n} (a : After) (home : cfg.cpu e = c)
    (last : (m.ec e).callee = none) : KeepsGraph cfg (m.blockSc c e a) := by
  unfold blockSc
  split
  · refine Meets.map ((view_enqueueSc m c e).mono fun m' view => graph_after ?_ a)
    rw [view]
    exact graph
  · rename_i ready
    exact keeps_makeCurrent graph home last (by simpa using ready)

theorem keeps_wake (graph : Graph cfg m.view) (e : Fin n) {back : Back n} (stands : m.view.StandsBack cfg c back) :
    KeepsGraph cfg (m.wake cfg c e back) := by
  unfold wake
  split
  · exact graph_goto graph (View.stands_back.mpr stands)
  · refine (view_unblock _ c _).mono fun m' view => ?_
    rw [view, view_setSc, view_setEc, update_callee, update_caller, update_cont, update_queued]
    exact graph

theorem keeps_requeue (graph : Graph cfg m.view) (t : Nat) {back : Back n} (stands : m.view.StandsBack cfg c back) :
    KeepsGraph cfg (m.requeue cfg c t back) := by
  unfold requeue
  split
  · exact graph_goto graph (View.stands_back.mpr stands)
  · refine (view_readyEnqueue _ c _ t).mono fun m' view => ?_
    rw [view, view_setSc, view_setCpu, update_current, update_sc, update_pc]
    exact graph

theorem keeps_sysCreateSc (graph : Graph cfg m.view) (active : m.view.Active c) (s : Nat) :
    KeepsGraph cfg (m.sysCreateSc cfg c s) := by
  unfold sysCreateSc
  split
  · exact graph
  · split
    · exact graph_goto graph active
    · split
      · exact graph_goto graph active
      · refine Meets.map ((view_unblock _ c s).mono fun m' view => ?_)
        refine graph_goto ?_ ?_
        · rw [view]
          exact graph
        · rw [view]
          exact active

theorem keeps_createRoot (graph : Graph cfg m.view) (s : Nat) : KeepsGraph cfg (m.createRoot cfg c s) := by
  unfold createRoot
  split
  · exact graph
  · refine (view_unblock _ c s).mono fun m' view => ?_
    rw [view]
    exact graph

theorem keeps_dn (graph : Graph cfg m.view) (active : m.view.Active c) (i : Nat) (zero timed : Bool) :
    KeepsGraph cfg (m.dn c i zero timed) := by
  unfold dn
  dsimp only
  split
  · generalize made : ((m.setSm i _).setEc (m.self c) _) = m₁
    have same : m₁.view = m.view := by
      rw [← made, view_setEc, update_callee, update_caller, update_cont, update_queued, view_setSm, update_queue]
    refine graph_goto ?_ ?_
    · rw [same]
      exact graph
    · rw [same]
      exact active
  · split
    · exact id
    · show Graph cfg (Machine.view _)
      rw [view_goto, view_setEc, update_callee, update_caller, view_setSm]
      exact graph.wait active i

theorem keeps_dnBlock (graph : Graph cfg m.view) (i : Nat) (timed : Bool)
    (stands : m.view.cont (m.self c) = some .blocking ∨ m.view.cont (m.self c) = some (.sysFinish .success true)) :
    KeepsGraph cfg (m.dnBlock c i timed) := by
  unfold dnBlock
  dsimp only
  split
  · have enqueued := view_enqueueSc m c (m.self c)
    cases done : m.enqueueSc c (m.self c) with
    | error fault =>
        rw [done] at enqueued
        exact enqueued
    | ok m' =>
        rw [done] at enqueued
        have view : m'.view = m.view := enqueued
        have graph' : Graph cfg m'.view := by
          rw [view]
          exact graph
        dsimp only
        split
        · split
          · exact id
          · refine graph_goto ?_ trivial
            rw [view_setEc, update_callee, update_caller, update_cont, update_queued]
            exact graph'
        · exact graph_goto graph' trivial
  · rename_i ready
    have cont : m.view.cont (m.self c) = some (.sysFinish .success true) := by
      refine stands.resolve_left fun is => ready ?_
      simp [Ec.blocked, show (m.ec (m.self c)).cont = some .blocking from is]
    exact graph_goto graph ⟨_, cont, by decide, by decide, by decide⟩

theorem graph_up (graph : Graph cfg m.view) (i : Nat) {fail back : Back n} (stands : m.view.StandsBack cfg c back)
    (failed : m.view.StandsBack cfg c fail) : Graph cfg (m.up c i fail back).view := by
  unfold up
  split
  · split
    · exact graph_goto graph (View.stands_back.mpr failed)
    · refine graph_goto ?_ (View.stands_back.mpr ?_)
      · rw [view_setSm, update_queue]
        exact graph
      · rw [view_setSm, update_queue]
        exact stands
  · rename_i e rest queue
    rw [view_goto, view_setEc, update_callee, update_caller, view_setSm]
    exact graph.unblock (p := .wake e back) (List.Perm.of_eq queue) (Or.inl rfl) (fun _ _ => rfl) stands

theorem keeps_timeout (graph : Graph cfg m.view) {e : Fin n} {back : Back n} (stands : m.view.StandsBack cfg c back)
    (apart : m.view.cont (m.self c) ≠ some .blocking) : KeepsGraph cfg (m.timeout cfg c e back) := by
  unfold timeout
  split
  · exact graph
  · split
    · exact graph
    · rename_i i _ home
      have same : (m.setEc e fun x => { x with timeout := none }).view = m.view := by
        rw [view_setEc, update_callee, update_caller, update_cont, update_queued]
      dsimp only
      split
      · refine graph_goto ?_ (View.stands_back.mpr ?_)
        · rw [same]
          exact graph
        · rw [same]
          exact stands
      · split
        · rename_i member
          show Graph cfg (Machine.view _)
          rw [view_goto, view_setEc, update_callee, update_caller, view_setSm, same]
          have waits : m.view.cont e = some .blocking := (graph.waiting e).mpr ⟨i, member⟩
          refine graph.unblock (p := .wake e back) (List.perm_cons_erase member) (Or.inr rfl) ?_ stands
          intro c' isCurrent
          have here : c' = c := (graph.home c').symm.trans ((congrArg cfg.cpu isCurrent).trans (not_not.mp home))
          subst here
          rw [← isCurrent] at waits
          exact absurd waits apart
        · exact id

/-! ## Steps and runs -/

theorem graph_preempt (graph : Graph cfg m.view) {f : Func} (stands : m.view.Stands cfg c (.hazard f)) :
    Graph cfg (m.preempt c f).view := by
  unfold preempt
  cases f with
  | user r =>
      rw [view_goto, view_cont]
      refine graph.setCont stands ?_ ?_ trivial
      · exact ⟨nofun, nofun, nofun, nofun⟩
      · exact nofun
  | idle =>
      have same : (m.setEc (m.self c) fun x => { x with cont := some Func.idle.cont }) = m := by
        refine setEc_eq_self ?_
        rw [show some Func.idle.cont = (m.ec (m.self c)).cont from stands.symm]
      rw [same]
      exact graph_goto graph trivial

theorem keeps_go (graph : Graph cfg m.view) : KeepsGraph cfg (m.go cfg c) := by
  have stands := graph.pc c
  unfold go
  dsimp only
  have here : m.view.pc c = (m.cpu c).pc := rfl
  rw [here] at stands
  split
  · exact graph_goto graph trivial
  · exact graph
  · rename_i pc
    rw [pc] at stands
    exact graph_goto graph ⟨stands, by decide⟩
  · rename_i f pc
    rw [pc] at stands
    exact keeps_start graph stands.1 stands.2
  · rename_i s pc
    rw [pc] at stands
    exact graph_finish graph stands s
  · rename_i r pc
    rw [pc] at stands
    refine graph_goto graph ?_
    split
    · exact stands
    · exact stands
  · rename_i f pc
    rw [pc] at stands
    show Graph cfg (Machine.view _)
    split
    · exact graph_preempt graph stands
    · cases f with
      | user r => exact graph_goto graph stands
      | idle => exact graph_goto graph ⟨stands, by decide⟩
  · exact graph
  · rename_i t pc
    rw [pc] at stands
    refine graph_goto graph ?_
    split
    · trivial
    · exact stands.2.1
  · rename_i pc
    rw [pc] at stands
    exact graph_goto graph stands
  · rename_i pc
    rw [pc] at stands
    obtain ⟨f, cont, notBlocking, notIdle⟩ := stands
    refine keeps_kill graph ?_ ?_
    · rw [show (m.ec (m.self c)).cont = some f from cont]
      exact fun eq => notBlocking (Option.some.inj eq)
    · rw [show (m.ec (m.self c)).cont = some f from cont]
      exact fun eq => notIdle (Option.some.inj eq)
  · exact keeps_schedule graph _
  · exact keeps_dispatch graph _
  · rename_i e a pc
    rw [pc] at stands
    exact keeps_activate graph stands
  · rename_i e a i pc
    rw [pc] at stands
    exact keeps_blockSc graph a stands.1 stands.2
  · rename_i i timed episode pc
    rw [pc] at stands
    exact keeps_dnBlock graph i timed stands
  · rename_i e back pc
    rw [pc] at stands
    exact keeps_wake graph e stands
  · rename_i t back pc
    rw [pc] at stands
    exact keeps_requeue graph t stands

theorem cont_of_active (active : m.view.Active c) :
    (m.ec (m.self c)).cont ≠ some .blocking ∧ (m.ec (m.self c)).cont ≠ some .idle := by
  obtain ⟨f, cont, notBlocking, -, notIdle⟩ := active
  rw [show (m.ec (m.self c)).cont = some f from cont]
  exact ⟨fun eq => notBlocking (Option.some.inj eq), fun eq => notIdle (Option.some.inj eq)⟩

theorem keeps_hypercall (graph : Graph cfg m.view) (h : Hypercall) : KeepsGraph cfg (m.hypercall cfg c h) := by
  unfold hypercall
  split
  · rename_i guard
    have active : m.view.Active c := by
      have stands := graph.pc c
      rw [show m.view.pc c = .user from guard.1] at stands
      exact stands
    cases h with
    | ipcCall => exact graph_goto graph ⟨active, fun _ => guard.2⟩
    | ipcReply => exact keeps_sysIpcReply graph (cont_of_active active).1 (cont_of_active active).2
    | createSc s => exact keeps_sysCreateSc graph active s
    | dn i zero timed => exact keeps_dn graph active i zero timed
    | up i => exact graph_up graph i active active
    | ctrlEc => exact graph_goto graph active
    | other s => exact graph_goto graph active
  · exact graph

theorem cont_of_resume {p : Pc n} {x : Msg} {back : Back n} (stands : m.view.Stands cfg c p)
    (enabled : p.resume x = some back) : m.view.cont (m.self c) ≠ some .blocking := by
  have idle : m.view.cont (m.self c) = some .idle → m.view.cont (m.self c) ≠ some .blocking := by
    intro is
    rw [is]
    nofun
  cases p with
  | user => exact (cont_of_active stands).1
  | pause => exact (cont_of_active stands).1
  | halt => exact idle stands
  | help t => exact (cont_of_active stands.1).1
  | hazard f =>
      cases f with
      | user r => exact (cont_of_active stands).1
      | idle => exact idle stands
  | _ => cases enabled

theorem keeps_irq (graph : Graph cfg m.view) (i : Irq n) (x : Msg) : KeepsGraph cfg (m.irq cfg c i x) := by
  unfold irq
  split
  · exact graph
  · rename_i back enabled
    have stands := View.stands_resume (graph.pc c) enabled
    cases i with
    | rrq => exact graph_goto graph stands
    | rke =>
        show Graph cfg (m.setCpu c _).view
        rw [view_setCpu, update_current, update_sc]
        exact graph.goto (View.stands_back.mpr stands)
    | budget =>
        show Graph cfg (Machine.view _)
        split
        · rw [view_setCpu, update_current, update_sc]
          exact graph.goto (View.stands_back.mpr stands)
        · exact graph
    | timeout e => exact keeps_timeout graph stands (cont_of_resume (graph.pc c) enabled)
    | gsi j => exact graph_up graph j stands stands

/-- **Every step keeps the graph**, and none of the assertions of the IPC path fails. -/
theorem step_graph (graph : Graph cfg m.view) (event : Event n) : KeepsGraph cfg (m.step cfg c event) := by
  have stands := graph.pc c
  rw [show m.view.pc c = (m.cpu c).pc from rfl] at stands
  unfold step
  split
  · exact graph
  · exact keeps_go graph
  · rename_i i pc
    rw [pc] at stands
    exact keeps_ipc graph stands.1 stands.2 _ _
  · exact keeps_createRoot graph _
  · exact keeps_hypercall graph _
  · rename_i pc
    rw [pc] at stands
    exact graph_goto graph ⟨stands, nofun⟩
  · rename_i pc
    rw [pc] at stands
    exact graph_goto graph stands
  · rename_i pc
    rw [pc] at stands
    obtain ⟨f, cont, notBlocking, -, notIdle⟩ := stands
    exact graph_goto graph ⟨f, cont, notBlocking, notIdle⟩
  · exact keeps_irq graph _ _
  · rename_i r pc
    rw [pc] at stands
    exact graph_goto graph stands
  · rename_i f pc
    rw [pc] at stands
    exact graph_preempt graph stands
  · rename_i r pc
    rw [pc] at stands
    show Graph cfg (Machine.view _)
    split
    · exact graph
    · obtain ⟨f, cont, notBlocking, -, notIdle⟩ := stands
      exact graph_goto graph ⟨f, cont, notBlocking, notIdle⟩
  · rename_i r pc
    rw [pc] at stands
    show Graph cfg (Machine.view _)
    split
    · exact graph
    · exact graph_goto graph ⟨stands, nofun⟩
  · exact graph

theorem graph_init (cfg : Config n k) (root : Option (Fin n)) (vm : Msg) (count : Nat → Nat) :
    Graph cfg (init cfg root vm count).view := by
  have cont : ∀ e, (init cfg root vm count).view.cont e = boots cfg root vm e := fun e => rfl
  have kinds : ∀ e, (cfg.Idle e ∧ boots cfg root vm e = some .idle) ∨
      (¬ cfg.Idle e ∧ (boots cfg root vm e = none ∨ boots cfg root vm e = some (.retUser .hypercall) ∨
        ∃ x, boots cfg root vm e = some (.sendMsg x))) := by
    intro e
    unfold boots
    by_cases idle : cfg.Idle e
    · exact Or.inl ⟨idle, if_pos idle⟩
    · refine Or.inr ⟨idle, ?_⟩
      rw [if_neg idle]
      cases cfg.subtype e with
      | ecLocal => exact Or.inl rfl
      | ecGlobal =>
          by_cases isRoot : root = some e
          · exact Or.inr (Or.inl (by simp [isRoot]))
          · exact Or.inr (Or.inr ⟨_, by simp only [if_neg isRoot]; rfl⟩)
      | ecVcpuReal => exact Or.inr (Or.inr ⟨vm, rfl⟩)
      | ecVcpuOffs => exact Or.inr (Or.inr ⟨vm, rfl⟩)
  have not : ∀ e f, f ≠ .idle → f ≠ .retUser .hypercall → (∀ x, f ≠ .sendMsg x) → boots cfg root vm e ≠ some f := by
    intro e f notIdle notRet notSend is
    rcases kinds e with ⟨-, eq⟩ | ⟨-, eq | eq | ⟨x, eq⟩⟩
    · exact notIdle (Option.some.inj (is.symm.trans eq))
    · rw [eq] at is
      cases is
    · exact notRet (Option.some.inj (is.symm.trans eq))
    · exact notSend x (Option.some.inj (is.symm.trans eq))
  refine ⟨⟨?_, ?_, ?_, ?_, ?_, ?_, ?_, ?_, ?_, ?_, ?_, ?_, ?_, ?_, ?_⟩, fun c => trivial⟩
  · exact fun e f => ⟨nofun, nofun⟩
  · exact fun e => ⟨1, rfl⟩
  · exact nofun
  · exact fun e _ => rfl
  · exact fun e is => absurd is (not e _ nofun nofun nofun)
  · exact fun e is => absurd is (not e _ nofun nofun nofun)
  · exact fun e is => absurd is (not e _ nofun nofun nofun)
  · intro e
    rw [cont]
    rcases kinds e with ⟨idle, eq⟩ | ⟨idle, eq | eq | ⟨x, eq⟩⟩
    · simp [idle, eq]
    · simp [idle, eq]
    · simp [idle, eq]
    · simp [idle, eq]
  · exact cfg.idle_cpu
  · exact fun c => rfl
  · intro c
    show cfg.cpu (cfg.ec (cfg.idleSc c)) = c
    rw [cfg.idle_ec, cfg.idle_cpu]
  · exact fun i => List.nodup_nil
  · exact nofun
  · exact fun e => ⟨fun is => absurd is (not e _ nofun nofun nofun), nofun⟩
  · exact fun e => ⟨nofun, fun is => absurd is (not e _ nofun nofun nofun)⟩

end Machine

end Nova.Kernel.Contexts
