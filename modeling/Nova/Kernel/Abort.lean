/-
# Nova.Kernel.Abort — killed execution contexts

An EC that executes `kill` never runs again: its continuation stays `dead`, nobody calls it
and nobody helps it.  Its caller gets `ABORTED` if it waits in `sys_ipc_call`, and is killed
when it runs next if it waits in an exception or VM exit.

A call with the timeout flag returns `TIMEOUT` before `help` looks at the continuation of
the callee: `not_aborts_timed_call`.
-/
import Nova.Kernel.Ipc

namespace Nova.Kernel.Contexts

open Nova.Theory.Chains
open Nova.Theory.Runs

set_option autoImplicit false

variable {n k : Nat}

namespace Machine

variable {cfg : Config n k} {m m' : Machine n k} {c : Fin k} {count : Nat → Nat}

theorem unlinked_caller (a e : Fin n) (f h : Option Cont) :
    ((m.unlinked c a f h).ec e).caller = (m.ec e).caller ∨ ((m.unlinked c a f h).ec e).caller = none := by
  rw [unlinked, setCpu_ec, field_setEc Ec.caller (by rfl), setEc_ec]
  split
  · exact Or.inr rfl
  · exact Or.inl rfl

/-- An EC gets a caller only while it waits for one. -/
theorem Move.caller (move : Move cfg m c m') {e : Fin n} (busy : (m.ec e).cont ≠ none) :
    (m'.ec e).caller = (m.ec e).caller ∨ (m'.ec e).caller = none := by
  cases move with
  | @rendezvous i t pc isLocal home ready =>
      have other : e ≠ t := fun is => busy (is ▸ ready)
      left
      rw [setCpu_ec, setEc_ec, if_neg other, field_setEc Ec.caller (by rfl)]
  | donated replies caller callee nonzero => exact unlinked_caller ..
  | helped replies caller callee zero => exact unlinked_caller ..
  | preempt pc => exact Or.inl (by rw [Machine.preempt, goto_ec, field_setEc Ec.caller (by rfl)])
  | help pc isLocal home filled alive => exact Or.inl (by rw [goto_ec, field_setEc Ec.caller (by rfl)])
  | wait pc blocked => exact Or.inl (by rw [after_ec, putQueue, setSc_ec, field_setEc Ec.caller (by rfl)])
  | retire ends caller => exact Or.inl (by rw [retire_ec, field_setEc Ec.caller (by rfl)])
  | finish pc token => exact Or.inl (by rw [goto_ec, field_setEc Ec.caller (by rfl), setSm_ec])
  | cancel pc => exact Or.inl (by rw [goto_ec, field_setEc Ec.caller (by rfl)])
  | wake pc queue => exact Or.inl (by rw [put_ec, takeQueue, setSc_ec, field_setEc Ec.caller (by rfl)])
  | take pc positive => exact Or.inl (by rw [goto_ec, field_setEc Ec.caller (by rfl), setSm_ec])
  | suspend pc utcb zero => exact Or.inl (by rw [goto_ec, field_setEc Ec.caller (by rfl), setSm_ec])
  | @sleep i timed episode pc blocked clear =>
      left
      rw [goto_ec, field_setEc Ec.caller (by cases timed <;> rfl), putQueue, setSc_ec, field_setEc Ec.caller (by rfl)]
  | release raises queue => exact Or.inl (by rw [goto_ec, field_setEc Ec.caller (by rfl), setSm_ec])
  | stale enabled pending home awake => exact Or.inl (by rw [goto_ec, field_setEc Ec.caller (by rfl)])
  | timeout enabled pending home blocked member => exact Or.inl (by rw [goto_ec, field_setEc Ec.caller (by rfl), setSm_ec])
  | _ => exact Or.inl (by simp)

end Machine

/-- The EC that the current one is about to help, also while an interrupt is handled -/
def Pc.helps : Pc n → Option (Fin n)
  | .help t | .wake _ (.help t) | .requeue _ (.help t) => some t
  | _ => none

namespace Machine

variable {cfg : Config n k} {m m' : Machine n k} {c : Fin k} {count : Nat → Nat}

theorem helps_of_back {back : Back n} {t : Fin n} (helps : back.pc.helps = some t) : back = .help t := by
  cases back with
  | help t' =>
      cases helps
      rfl
  | _ => cases helps

theorem helps_of_resume {p : Pc n} {x : Msg} {t : Fin n} (enabled : p.resume x = some (.help t)) : p.helps = some t := by
  cases p with
  | help t' =>
      cases enabled
      rfl
  | _ => cases enabled

theorem Raises.helps {t : Fin n} (raises : Raises cfg m c (.help t)) : (m.cpu c).pc.helps = some t := by
  cases raises with
  | gsi enabled => exact helps_of_resume enabled

theorem Jump.helps {p q : Pc n} {t : Fin n} (jump : Jump cfg m c p q) (helps : q.helps = some t) : p.helps = some t := by
  cases jump with
  | woken e back empty =>
      obtain rfl := helps_of_back helps
      rfl
  | requeued s back empty =>
      obtain rfl := helps_of_back helps
      rfl
  | @rrq p x back enabled =>
      cases back with
      | help t' =>
          cases helps
          exact helps_of_resume enabled
      | _ => cases helps
  | @resume p x back enabled =>
      obtain rfl := helps_of_back helps
      exact helps_of_resume enabled
  | pass f free => cases f <;> cases helps
  | _ => cases helps

/-- Nobody begins to help a dead EC. -/
theorem Move.helps (move : Move cfg m c m') {t : Fin n} (dead : (m.ec t).cont = some .dead)
    (helps : (m'.cpu c).pc.helps = some t) : (m.cpu c).pc.helps = some t := by
  cases move with
  | jump jump =>
      rw [goto_pc, if_pos rfl] at helps
      exact jump.helps helps
  | @help i t' pc isLocal home filled alive =>
      rw [goto_pc, if_pos rfl] at helps
      cases helps
      exact absurd dead alive
  | @wait e a i pc blocked => cases a <;> simp [after, Pc.helps] at helps
  | wake pc queue =>
      rw [pc_put, takeQueue_cpu] at helps
      exact helps
  | requeue pc queue home =>
      rw [pc_putReady, takeRelease_pc] at helps
      exact helps
  | create creates fresh bound =>
      rw [goto_pc, if_pos rfl] at helps
      cases creates <;> cases helps
  | count raises empty room =>
      rw [goto_pc, if_pos rfl] at helps
      obtain rfl := helps_of_back helps
      exact raises.helps
  | @release i back e rest raises queue =>
      rw [goto_pc, if_pos rfl] at helps
      cases back with
      | help t' =>
          cases helps
          exact raises.helps
      | _ => cases helps
  | stale enabled pending home awake =>
      rw [goto_pc, if_pos rfl] at helps
      obtain rfl := helps_of_back helps
      exact helps_of_resume enabled
  | @timeout x back e i enabled pending home blocked member =>
      rw [goto_pc, if_pos rfl] at helps
      cases back with
      | help t' =>
          cases helps
          exact helps_of_resume enabled
      | _ => cases helps
  | sched enabled armed =>
      simp at helps
      obtain rfl := helps_of_back helps
      exact helps_of_resume enabled
  | stay => exact helps
  | tick d => exact helps
  | _ => simp [Machine.preempt, Pc.helps] at helps

/-! ## Dead -/

/-- The EC is dead and has no caller, and nobody is about to help it. -/
structure Gone (m : Machine n k) (d : Fin n) : Prop where
  cont : (m.ec d).cont = some .dead
  caller : (m.ec d).caller = none
  helps : ∀ c, (m.cpu c).pc.helps ≠ some d

theorem gone_move {d : Fin n} (sound : Sound cfg count m) (gone : m.Gone d) (move : Move cfg m c m') : m'.Gone d := by
  refine ⟨?_, ?_, fun c' helps => ?_⟩
  · rcases move.cont sound.graph d with same | rewrites
    · exact same.trans gone.cont
    · cases rewrites with
      | own here active executes =>
          obtain ⟨f, cont, -, notDead, -⟩ := active
          rw [show m.view.cont (m.view.current c) = (m.ec (m.self c)).cont from rfl, here, gone.cont] at cont
          exact absurd (Option.some.inj cont).symm notDead
      | killed here pc dead => exact dead
      | called none =>
          rw [gone.cont] at none
          cases none
      | released blocking =>
          rw [gone.cont] at blocking
          cases blocking
      | aborts pc caller changed =>
          obtain ⟨-, -, r, waits⟩ := sound.graph.callee d _ (partners sound.graph caller).1
          rw [show m.view.cont d = (m.ec d).cont from rfl, gone.cont] at waits
          cases waits
  · have busy : (m.ec d).cont ≠ none := by
      rw [gone.cont]
      nofun
    rcases move.caller busy with same | none
    · exact same.trans gone.caller
    · exact none
  · by_cases here : c' = c
    · subst here
      exact gone.helps c' (move.helps gone.cont helps)
    · obtain ⟨q, kept⟩ := move.elsewhere here
      rw [kept] at helps
      exact gone.helps c' helps

/-! ## The effects of a kill -/

/-- The EC never runs again, and whoever calls it fails. -/
structure Dead (cfg : Config n k) (d : Fin n) (m : Machine n k) : Prop where
  cont : (m.ec d).cont = some .dead
  caller : (m.ec d).caller = none
  callee : (m.ec d).callee = none
  uncalled : ∀ e, (m.ec e).callee ≠ some d
  stopped : ∀ c, m.self c = d → (m.cpu c).pc ≠ .user
  unhelped : ∀ c, (m.cpu c).pc.helps ≠ some d
  calls : ∀ c i noWait, (m.cpu c).pc = .ipc i → cfg.subtype d = .ecLocal → cfg.cpu (m.self c) = cfg.cpu d →
    m.step cfg c (.lookup (some d) noWait) = .ok (m.refuse c i (if noWait then .timeout else .aborted))

theorem Gone.dead {d : Fin n} (gone : m.Gone d) (sound : Sound cfg count m) : m.Dead cfg d := by
  refine ⟨gone.cont, gone.caller, ?_, fun e callee => ?_, fun c here pc => ?_, gone.helps, fun c i noWait pc isLocal home => ?_⟩
  · cases callee : (m.ec d).callee with
    | none => rfl
    | some f =>
        obtain ⟨-, -, r, waits⟩ := sound.graph.callee d f callee
        rw [show m.view.cont d = (m.ec d).cont from rfl, gone.cont] at waits
        cases waits
  · have caller : (m.ec d).caller = some e := (sound.graph.inverse e d).mp callee
    rw [gone.caller] at caller
    cases caller
  · have stands : m.view.Stands cfg c (m.cpu c).pc := sound.graph.pc c
    rw [pc] at stands
    obtain ⟨f, cont, -, notDead, -⟩ := stands
    rw [show m.view.cont (m.view.current c) = (m.ec (m.self c)).cont from rfl, here, gone.cont] at cont
    exact notDead (Option.some.inj cont).symm
  · simp only [step, pc, ipc, isLocal, home, gone.cont]
    cases i <;> cases noWait <;> simp [refuse]

/-- What follows when CPU `c` executes `kill` in `m`, with the result `m'` -/
structure Aborts (cfg : Config n k) (c : Fin k) (m m' : Machine n k) : Prop where
  dead : ∀ later, ∃ m₁, m'.exec cfg later = .ok m₁ ∧ m₁.Dead cfg (m.self c)
  caller : ∀ a, (m.ec (m.self c)).caller = some a → ∃ r, (m.ec a).cont = some (.retUser r) ∧
    let g := if r = .hypercall then .sysFinish .aborted false else .dead
    (m'.ec a).cont = some g ∧ ∀ later, ∃ m₁, m'.exec cfg later = .ok m₁ ∧
      (m₁.Pending a g ∨ ∃ before after m₂ c', later = before ++ after ∧ m'.exec cfg before = .ok m₂ ∧
        m₂.self c' = a ∧ (m₂.cpu c').pc = .run g)
  others : ∀ e, e ≠ m.self c → (m.ec (m.self c)).caller ≠ some e → (m'.ec e).cont = (m.ec e).cont

/-- An EC is helped on its own CPU. -/
theorem helps_home (graph : Graph cfg m.view) {t : Fin n} (helps : (m.cpu c).pc.helps = some t) : cfg.cpu t = c := by
  have stands : m.view.Stands cfg c (m.cpu c).pc := graph.pc c
  cases pc : (m.cpu c).pc with
  | help t' =>
      rw [pc] at helps stands
      cases helps
      exact stands.2.1
  | wake e back =>
      rw [pc] at helps stands
      cases back with
      | help t' =>
          cases helps
          exact stands.2.1
      | _ => cases helps
  | requeue s back =>
      rw [pc] at helps stands
      cases back with
      | help t' =>
          cases helps
          exact stands.2.1
      | _ => cases helps
  | _ =>
      rw [pc] at helps
      cases helps

theorem replied_cont (a e : Fin n) (f : Option Cont) (g : Cont) : ((m.replied cfg c a f g).ec e).cont =
    if e = a then some g else if e = m.self c then f else (m.ec e).cont := by
  have same : (m.replied cfg c a f g).ec = (m.unlinked c a f (some g)).ec := by
    unfold replied
    split <;> rfl
  rw [same, unlinked_cont]

theorem replied_caller {a : Fin n} (ne : m.self c ≠ a) (f : Option Cont) (g : Cont) :
    ((m.replied cfg c a f g).ec (m.self c)).caller = none := by
  have same : (m.replied cfg c a f g).ec = (m.unlinked c a f (some g)).ec := by
    unfold replied
    split <;> rfl
  rw [same, unlinked, setCpu_ec, setEc_ec, if_neg ne, setEc_ec, if_pos rfl]

theorem replied_helps (a : Fin n) (f : Option Cont) (g : Cont) : ((m.replied cfg c a f g).cpu c).pc.helps = none := by
  unfold replied
  split
  · rw [goto_pc, if_pos rfl]
    rfl
  · rw [setCpu_cpu, if_pos rfl]
    rfl

/-- The caller runs at once, or waits until its own SC runs it. -/
theorem replied_pending (graph : Graph cfg m.view) {a : Fin n} (caller : (m.ec (m.self c)).caller = some a)
    (f : Option Cont) (g : Cont) (graph' : Graph cfg (m.replied cfg c a f g).view) :
    (m.replied cfg c a f g).Pending a g ∨ (m.replied cfg c a f g).Resumes a g := by
  obtain ⟨callee, ne⟩ := partners graph caller
  by_cases zero : (m.cpu c).donations = 0
  · refine Or.inl ⟨by rw [replied_cont, if_pos rfl], fun c' here => ?_⟩
    have home : cfg.cpu a = c := (graph.callee a _ callee).2.1.symm.trans (graph.home c)
    have same : c' = c := (graph'.home c').symm.trans ((congrArg cfg.cpu here).trans home)
    rw [same, replied, if_pos zero, goto_pc, if_pos rfl]
    rfl
  · refine Or.inr ⟨c, ?_, Or.inl ?_⟩
    · rw [replied, if_neg zero, self, setCpu_cpu, if_pos rfl]
    · rw [replied, if_neg zero, setCpu_cpu, if_pos rfl]

theorem Sound.aborts (sound : Sound cfg count m) (pc : (m.cpu c).pc = .kill) :
    ∃ m', m.step cfg c .go = .ok m' ∧ Aborts cfg c m m' := by
  obtain ⟨m', done, move, sound'⟩ := step_sound sound c .go
  have kills : m.kill cfg c = .ok m' := by
    rw [← done]
    simp only [step, go, pc]
  have elsewhere : ∀ c', c' ≠ c → (m'.cpu c').pc.helps ≠ some (m.self c) := fun c' other helps =>
    other ((helps_home sound'.graph helps).symm.trans (sound.graph.home c))
  refine ⟨m', done, ?_⟩
  cases caller : (m.ec (m.self c)).caller with
  | none =>
      have result : m' = m.retire c (some .dead) := by
        unfold kill at kills
        rw [caller] at kills
        dsimp only at kills
        rw [reply_alone caller] at kills
        exact (Except.ok.inj kills).symm
      have gone : m'.Gone (m.self c) := by
        refine ⟨by simp [result], ?_, fun c' => ?_⟩
        · rw [result, retire_ec, field_setEc Ec.caller (by rfl), caller]
        · by_cases same : c' = c
          · rw [same, result, retire_cpu, goto_pc, if_pos rfl]
            rintro ⟨⟩
          · exact elsewhere c' same
      refine ⟨fun later => ?_, fun a is => ?_, fun e other _ => by simp [result, other]⟩
      · obtain ⟨m₁, ran, sound₁, gone₁⟩ := exec_keeps (fun _ _ _ sound _ gone move => gone_move sound gone move) sound' gone later
        exact ⟨m₁, ran, gone₁.dead sound₁⟩
      · rw [caller] at is
        cases is
  | some a =>
      obtain ⟨callee, ne⟩ := partners sound.graph caller
      obtain ⟨-, -, r, waits⟩ := sound.graph.callee a _ callee
      have cont : (m.ec a).cont = some (.retUser r) := waits
      have next : aborted (m.ec a).cont = if r = .hypercall then .sysFinish .aborted false else .dead := by
        rw [cont]
        cases r <;> simp [aborted]
      have result : m' = m.replied cfg c a (some .dead) (if r = .hypercall then .sysFinish .aborted false else .dead) := by
        rw [kill_eq sound.graph caller, next] at kills
        exact (Except.ok.inj kills).symm
      have gone : m'.Gone (m.self c) := by
        refine ⟨?_, ?_, fun c' => ?_⟩
        · rw [result, replied_cont, if_neg ne, if_pos rfl]
        · rw [result, replied_caller ne]
        · by_cases same : c' = c
          · rw [same, result, replied_helps]
            rintro ⟨⟩
          · exact elsewhere c' same
      refine ⟨fun later => ?_, fun a' is => ?_, fun e other apart => ?_⟩
      · obtain ⟨m₁, ran, sound₁, gone₁⟩ := exec_keeps (fun _ _ _ sound _ gone move => gone_move sound gone move) sound' gone later
        exact ⟨m₁, ran, gone₁.dead sound₁⟩
      · rw [caller] at is
        obtain rfl := Option.some.inj is
        refine ⟨r, cont, ?_, fun later => ?_⟩
        · rw [result, replied_cont, if_pos rfl]
        · have start := replied_pending sound.graph caller (some .dead) _ (result ▸ sound'.graph)
          rw [← result] at start
          have own : ∀ g : Cont, g = (if r = .hypercall then .sysFinish .aborted false else .dead) →
              (g ≠ .blocking ∧ ∀ r', g ≠ .retUser r') ∧ g ≠ .sysFinish .success true := by
            rintro g rfl
            split <;> exact ⟨⟨by rintro ⟨⟩, by rintro _ ⟨⟩⟩, by rintro ⟨⟩⟩
          obtain ⟨m₁, ran, until_⟩ := exec_pending (own _ rfl).1 sound' start later
          refine ⟨m₁, ran, until_.imp_right ?_⟩
          rintro ⟨before, after, m₂, split, reached, c', here, runs | ⟨success, -⟩⟩
          · exact ⟨before, after, m₂, c', split, reached, here, runs⟩
          · exact absurd success (own _ rfl).2
      · have off : e ≠ a := fun is => apart (by rw [caller, is])
        rw [result, replied_cont, if_neg off, if_neg other]

/-- **In every run, whatever EC is killed stays dead**, its caller gets `ABORTED` or is killed when it
runs next, and nobody else is affected. -/
theorem exec_aborts (cfg : Config n k) (root : Option (Fin n)) (vm : Msg) (count : Nat → Nat)
    (events : List (Fin k × Event n)) :
    ∃ m, (init cfg root vm count).exec cfg events = .ok m ∧
      ∀ c, (m.cpu c).pc = .kill → ∃ m', m.step cfg c .go = .ok m' ∧ Aborts cfg c m m' := by
  obtain ⟨m, done, sound⟩ := exec_sound cfg root vm count events
  exact ⟨m, done, fun c pc => sound.aborts pc⟩

/-! ## Calls with the timeout flag -/

/-- Whoever calls the EC gets `ABORTED` or is killed. -/
def AbortsCalls (cfg : Config n k) (d : Fin n) (m : Machine n k) : Prop :=
  ∀ c i noWait m', (m.cpu c).pc = .ipc i → cfg.subtype d = .ecLocal → cfg.cpu (m.self c) = cfg.cpu d →
    m.step cfg c (.lookup (some d) noWait) = .ok m' → (m'.cpu c).pc = .finish .aborted ∨ (m'.cpu c).pc = .kill

local instance abort_cpus : NeZero 1 := ⟨by decide⟩
local instance abort_ecs : NeZero 3 := ⟨by decide⟩

/-- EC 1 calls EC 2, which has a fatal exception. -/
def fatalCall : List (Fin 1 × Event 3) :=
  [.createRoot 1, .go, .go, .go, .go, .go, .go, .hypercall .ipcCall, .lookup (some 2) false, .go, .go, .fatal].map ((0, ·))

/-- EC 2 is killed, and EC 1 calls it again. -/
def callAgain : List (Fin 1 × Event 3) := [.go, .go, .go, .go, .hypercall .ipcCall].map ((0, ·))

/-- The place of CPU 0 and its current EC at the end of a run -/
def ends (events : List (Fin 1 × Event 3)) : Option (Pc 3 × Fin 3) :=
  match (init pair (some 1) .vmexitVmx fun _ => 0).exec pair events with
  | .ok m => some ((m.cpu 0).pc, m.self 0)
  | .error _ => none

theorem ends_of {events : List (Fin 1 × Event 3)} {m : Machine 3 1}
    (done : (init pair (some 1) .vmexitVmx fun _ => 0).exec pair events = .ok m) :
    ends events = some ((m.cpu 0).pc, m.self 0) := by
  rw [ends, done]

/-- **A call of a dead EC need not be aborted**: with the timeout flag it returns `TIMEOUT`. -/
theorem not_aborts_timed_call : ¬ ∀ (events later : List (Fin 1 × Event 3)) (m m' : Machine 3 1),
    (init pair (some 1) .vmexitVmx fun _ => 0).exec pair events = .ok m → (m.cpu 0).pc = .kill →
      m.exec pair ((0, .go) :: later) = .ok m' → m'.AbortsCalls pair (m.self 0) := by
  intro claim
  obtain ⟨m, done, sound⟩ := exec_sound pair (some 1) .vmexitVmx (fun _ => 0) fatalCall
  obtain ⟨m', ran, sound', -⟩ := exec_keeps (I := fun _ => True) (fun _ _ _ _ _ _ _ => trivial) sound trivial callAgain
  obtain ⟨m'', refused, -, -⟩ := step_sound sound' 0 (.lookup (some 2) true)
  have run : (init pair (some 1) .vmexitVmx fun _ => 0).exec pair (fatalCall ++ callAgain) = .ok m' := by
    rw [exec_append, done]
    exact ran
  have answer : (init pair (some 1) .vmexitVmx fun _ => 0).exec pair (fatalCall ++ callAgain ++ [(0, .lookup (some 2) true)]) =
      .ok m'' := by
    rw [exec_append, run]
    exact (exec_single ..).trans refused
  have killed : some ((m.cpu 0).pc, m.self 0) = some (.kill, 2) := (ends_of done).symm.trans (by decide +kernel)
  have calls : some ((m'.cpu 0).pc, m'.self 0) = some (.ipc .call, 1) := (ends_of run).symm.trans (by decide +kernel)
  have returns : some ((m''.cpu 0).pc, m''.self 0) = some (.finish .timeout, 1) :=
    (ends_of answer).symm.trans (by decide +kernel)
  obtain ⟨pc, dead⟩ := Prod.mk.inj (Option.some.inj killed)
  obtain ⟨pc', caller⟩ := Prod.mk.inj (Option.some.inj calls)
  obtain ⟨pc'', -⟩ := Prod.mk.inj (Option.some.inj returns)
  have aborts := claim fatalCall _ m m' done pc ran
  rw [dead] at aborts
  rcases aborts 0 .call true m'' pc' rfl (by rw [caller]; rfl) refused with aborted | killed
  · rw [pc''] at aborted
    cases aborted
  · rw [pc''] at killed
    cases killed

end Machine

end Nova.Kernel.Contexts
