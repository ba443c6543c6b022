/-
# Nova.Kernel.Wakeup — scheduling contexts that wait for an execution context

An SC whose EC is blocked waits in the queue of that EC.  `block` and `unblock` change the
continuation of the EC without the lock that protects the queue, and `unblock_sc`, which
empties it, may come late.  `Wakes` says that none of the SCs is forgotten: the EC of a
queued SC is blocked, or some CPU is going to execute `unblock_sc` for it.

A local EC without continuation needs care, since `rendezvous` gives it one and wakes
nobody; `Reaches` says that `activate` never comes to an SC queue of such an EC.
-/
import Nova.Kernel.Semaphore

namespace Nova.Kernel.Contexts

open Nova.Theory.Chains

set_option autoImplicit false

variable {n k : Nat}

namespace Machine

variable (cfg : Config n k) (m : Machine n k)

/-- What `activate` and `block_sc` know about their EC -/
def Reaches : Pc n → Prop
  | .activate e _ => (m.ec e).cont = none → cfg.subtype e ≠ .ecLocal
  | .blockSc e _ episode => ((m.ec e).cont = none → cfg.subtype e ≠ .ecLocal) ∧ (m.ec e).blocks = episode
  | _ => True

/-- Some CPU is going to execute `unblock_sc` for the EC. -/
def Waking (e : Fin n) : Prop := ∃ c back, (m.cpu c).pc = .wake e back

structure Wakes : Prop where
  queued : ∀ e, (m.ec e).queue ≠ [] →
    (m.ec e).cont = some .blocking ∨ ((m.ec e).cont = none ∧ cfg.subtype e ≠ .ecLocal) ∨ m.Waking e
  reaches : ∀ c, m.Reaches cfg (m.cpu c).pc

variable {cfg m} {m' : Machine n k} {c : Fin k}

/-- A CPU that is not finished with the queue of `e` stays where it is. -/
theorem Waking.stay {e : Fin n} (waking : m.Waking e) (cpus : ∀ c', c' ≠ c → (m'.cpu c').pc = (m.cpu c').pc)
    (leave : ∀ back, (m.cpu c).pc = .wake e back → (m'.cpu c).pc = .wake e back) : m'.Waking e := by
  obtain ⟨c', back, pc⟩ := waking
  by_cases same : c' = c
  · subst same
    exact ⟨c', back, leave back pc⟩
  · exact ⟨c', back, (cpus c' same).trans pc⟩

namespace Wakes

/-- Another CPU stands where it stood. -/
theorem others (wakes : Wakes cfg m) (graph : Graph cfg m.view) {c' : Fin k} (pc : (m'.cpu c').pc = (m.cpu c').pc)
    (same : ∀ e, cfg.cpu e = c' → (m'.ec e).blocks = (m.ec e).blocks ∧ ((m'.ec e).cont = none → (m.ec e).cont = none)) :
    m'.Reaches cfg (m'.cpu c').pc := by
  have stands := graph.pc c'
  have reaches := wakes.reaches c'
  rw [show m.view.pc c' = (m.cpu c').pc from rfl] at stands
  rw [pc]
  cases here : (m.cpu c').pc with
  | activate e a =>
      rw [here] at stands reaches
      exact fun none => reaches ((same e stands).2 none)
  | blockSc e a i =>
      rw [here] at stands reaches
      obtain ⟨blocks, cont⟩ := same e stands.1
      exact ⟨fun none => reaches.1 (cont none), blocks.trans reaches.2⟩
  | _ => trivial

/-- A step that changes no queue, and whose EC was waiting for nothing -/
theorem frame (wakes : Wakes cfg m) (graph : Graph cfg m.view) (queue : ∀ e, (m'.ec e).queue = (m.ec e).queue)
    (cont : ∀ e, (m'.ec e).cont = (m.ec e).cont ∨ (m'.ec e).cont = some .blocking ∨
      ((m.ec e).cont ≠ some .blocking ∧ ((m.ec e).cont = none → cfg.subtype e = .ecLocal)) ∨ m'.Waking e)
    (ecs : ∀ e, cfg.cpu e ≠ c → (m'.ec e).blocks = (m.ec e).blocks ∧ ((m'.ec e).cont = none → (m.ec e).cont = none))
    (cpus : ∀ c', c' ≠ c → (m'.cpu c').pc = (m.cpu c').pc)
    (leave : ∀ e back, (m.cpu c).pc = .wake e back → (m'.cpu c).pc = .wake e back ∨ (m.ec e).queue = [])
    (here : m'.Reaches cfg (m'.cpu c).pc) : Wakes cfg m' := by
  constructor
  · intro e waiting
    rw [queue] at waiting
    have stays : m.Waking e → m'.Waking e := fun waking =>
      waking.stay cpus fun back pc => (leave e back pc).resolve_right waiting
    rcases cont e with same | blocking | ⟨notBlocking, isLocal⟩ | waking
    · rw [same]
      exact (wakes.queued e waiting).imp_right fun h => h.imp_right stays
    · exact Or.inl blocking
    · rcases wakes.queued e waiting with is | ⟨none, notLocal⟩ | waking
      · exact absurd is notBlocking
      · exact absurd (isLocal none) notLocal
      · exact Or.inr (Or.inr (stays waking))
    · exact Or.inr (Or.inr waking)
  · intro c'
    by_cases same : c' = c
    · subst same
      exact here
    · refine wakes.others graph (cpus c' same) fun e home => ecs e ?_
      rw [home]
      exact same

/-- The step changes no EC and leaves no queue. -/
theorem cpuOnly (wakes : Wakes cfg m) (graph : Graph cfg m.view) (ec : m'.ec = m.ec)
    (cpus : ∀ c', c' ≠ c → (m'.cpu c').pc = (m.cpu c').pc)
    (leave : ∀ e back, (m.cpu c).pc = .wake e back → (m'.cpu c).pc = .wake e back ∨ (m.ec e).queue = [])
    (here : m'.Reaches cfg (m'.cpu c).pc) : Wakes cfg m' :=
  wakes.frame graph (fun e => by rw [ec]) (fun e => Or.inl (by rw [ec])) (fun e _ => by rw [ec]; exact ⟨rfl, id⟩) cpus leave here

/-- The step changes ECs in other fields only. -/
theorem same (wakes : Wakes cfg m) (graph : Graph cfg m.view) (queue : ∀ e, (m'.ec e).queue = (m.ec e).queue)
    (cont : ∀ e, (m'.ec e).cont = (m.ec e).cont) (blocks : ∀ e, (m'.ec e).blocks = (m.ec e).blocks)
    (cpus : ∀ c', c' ≠ c → (m'.cpu c').pc = (m.cpu c').pc) (leave : ∀ e back, (m.cpu c).pc ≠ .wake e back)
    (here : m'.Reaches cfg (m'.cpu c).pc) : Wakes cfg m' :=
  wakes.frame graph queue (fun e => Or.inl (cont e)) (fun e _ => ⟨blocks e, fun none => (cont e).symm.trans none⟩) cpus
    (fun e back pc => absurd pc (leave e back)) here

/-- An SC comes into the queue of a blocked EC. -/
theorem putQueue (wakes : Wakes cfg m) (graph : Graph cfg m.view) {e : Fin n} {s : Nat}
    (blocked : (m.ec e).cont = some .blocking ∨ ((m.ec e).cont = none ∧ cfg.subtype e ≠ .ecLocal))
    (queue : ∀ x, (m'.ec x).queue = ((m.putQueue e s).ec x).queue) (cont : ∀ x, (m'.ec x).cont = (m.ec x).cont)
    (blocks : ∀ x, (m'.ec x).blocks = (m.ec x).blocks) (cpus : ∀ c', c' ≠ c → (m'.cpu c').pc = (m.cpu c').pc)
    (leave : ∀ e back, (m.cpu c).pc ≠ .wake e back) (here : m'.Reaches cfg (m'.cpu c).pc) : Wakes cfg m' := by
  constructor
  · intro x waiting
    rw [cont]
    by_cases same : x = e
    · subst same
      exact blocked.imp_right Or.inl
    · have waiting : (m.ec x).queue ≠ [] := by simpa [queue, Machine.putQueue, same] using waiting
      refine (wakes.queued x waiting).imp_right fun h => h.imp_right fun waking => ?_
      exact waking.stay cpus fun back pc => absurd pc (leave x back)
  · intro c'
    by_cases same : c' = c
    · subst same
      exact here
    · exact wakes.others graph (cpus c' same) fun x _ => ⟨blocks x, fun none => (cont x).symm.trans none⟩

theorem jump (wakes : Wakes cfg m) (graph : Graph cfg m.view) {p : Pc n} (jump : Jump cfg m c (m.cpu c).pc p) :
    Wakes cfg (m.goto c p) := by
  refine wakes.cpuOnly graph (c := c) rfl (fun c' ne => by simp [ne]) (fun e back pc => Or.inr ?_) ?_
  · rw [pc] at jump
    cases jump with
    | woken _ _ empty => exact empty
    | rrq enabled => cases enabled
    | resume enabled => cases enabled
  · rw [goto_pc, if_pos rfl]
    have stands := graph.pc c
    rw [show m.view.pc c = (m.cpu c).pc from rfl] at stands
    have backs : ∀ back : Back n, (m.goto c p).Reaches cfg back.pc := by
      intro back
      cases back <;> trivial
    generalize (m.cpu c).pc = q at jump stands
    cases jump with
    | help t => exact fun none => absurd none stands.2.2
    | pass f free => cases f <;> trivial
    | woken e back empty => exact backs back
    | requeued t back empty => exact backs back
    | resume enabled => exact backs _
    | _ => trivial

end Wakes

/-- The current EC gets another continuation. -/
theorem Wakes.setCont (wakes : Wakes cfg m) (graph : Graph cfg m.view) (waits : Waits cfg m)
    (settled : (m.cpu c).pc.settled = true) (notWake : ∀ e back, (m.cpu c).pc ≠ .wake e back) {f : Option Cont} {p : Pc n}
    (here : ∀ m' : Machine n k, m'.Reaches cfg p) :
    Wakes cfg ((m.setEc (m.self c) fun x => { x with cont := f }).goto c p) := by
  obtain ⟨g, cont, notBlocking⟩ := waits.runs graph settled
  refine wakes.frame graph (c := c) (fun e => ?_) (fun e => ?_) (fun e away => ?_) (fun c' ne => by simp [ne])
    (fun e back pc => absurd pc (notWake e back)) ?_
  · by_cases same : e = m.self c <;> simp [same]
  · by_cases same : e = m.self c
    · subst same
      exact Or.inr (Or.inr (Or.inl (by simp [cont, notBlocking])))
    · exact Or.inl (by simp [same])
  · have same : e ≠ m.self c := by
      rintro rfl
      exact away (graph.home c)
    simp [same]
  · rw [goto_pc, if_pos rfl]
    exact here _

/-- The end of a chain that has no continuation is its beginning. -/
theorem start_of_follow (graph : Graph cfg m.view) {e f : Fin n} {d : Nat}
    (reached : follow (fun x => (m.ec x).callee) n e = some (f, d)) (none : (m.ec f).cont = none) : f = e := by
  have hops : hop m.view.callee d e = some f := (follow_eq_some reached).1
  cases d with
  | zero => exact (Option.some.inj hops).symm
  | succ d =>
      rw [hop_succ] at hops
      obtain ⟨x, -, callee⟩ := Option.bind_eq_some_iff.mp hops
      have caller : (m.ec f).caller = some x := (graph.inverse x f).mp callee
      rw [show (m.ec f).caller = _ from graph.fresh f none] at caller
      cases caller

theorem not_wake_of_resume {p : Pc n} {x : Msg} {back : Back n} (enabled : p.resume x = some back) :
    ∀ e back', p ≠ .wake e back' := by
  rintro e back' rfl
  cases enabled

theorem Raises.not_wake {back : Back n} (raises : Raises cfg m c back) : ∀ e back', (m.cpu c).pc ≠ .wake e back' := by
  cases raises with
  | hypercall pc utcb =>
      rw [pc]
      exact nofun
  | gsi enabled => exact not_wake_of_resume enabled

/-- `reply` and `kill` change the continuations of ECs that do not wait. -/
theorem unlinked_ecs (graph : Graph cfg m.view) (waits : Waits cfg m) {a : Fin n} {f h : Option Cont}
    (replies : Replies cfg m c a f h) (callee : (m.ec a).callee = some (m.self c)) :
    (∀ e, ((m.unlinked c a f h).ec e).queue = (m.ec e).queue) ∧
    (∀ e, ((m.unlinked c a f h).ec e).cont = (m.ec e).cont ∨
      (m.ec e).cont ≠ some .blocking ∧ ((m.ec e).cont = none → cfg.subtype e = .ecLocal)) ∧
    (∀ e, cfg.cpu e ≠ c → ((m.unlinked c a f h).ec e).blocks = (m.ec e).blocks ∧
      (((m.unlinked c a f h).ec e).cont = none → (m.ec e).cont = none)) := by
  obtain ⟨g, runs, notBlocking⟩ := waits.runs (c := c) graph (by rcases replies.pc with pc | pc <;> rw [pc] <;> rfl)
  obtain ⟨-, home, r, waiting⟩ := graph.callee a (m.self c) callee
  have waiting : (m.ec a).cont = some (.retUser r) := waiting
  refine ⟨fun e => ?_, fun e => ?_, fun e away => ?_⟩
  · rw [unlinked, setCpu_ec, field_setEc Ec.queue (by rfl), field_setEc Ec.queue (by rfl)]
  · by_cases isCaller : e = a
    · subst isCaller
      exact Or.inr (by simp [waiting])
    · by_cases isSelf : e = m.self c
      · subst isSelf
        exact Or.inr (by simp [runs, notBlocking])
      · exact Or.inl (by simp [unlinked, isCaller, isSelf])
  · have isCaller : e ≠ a := by
      rintro rfl
      exact away (home.symm.trans (graph.home c))
    have isSelf : e ≠ m.self c := by
      rintro rfl
      exact away (graph.home c)
    simp [unlinked, isCaller, isSelf]

/-- `unblock`, with `unblock_sc` to come -/
theorem Wakes.unblock (wakes : Wakes cfg m) (graph : Graph cfg m.view) {e : Fin n} {back : Back n}
    (leave : ∀ e back, (m.cpu c).pc ≠ .wake e back) (queue : ∀ x, (m'.ec x).queue = (m.ec x).queue)
    (others : ∀ x, x ≠ e → (m'.ec x).cont = (m.ec x).cont) (blocks : ∀ x, (m'.ec x).blocks = (m.ec x).blocks)
    (released : (m'.ec e).cont ≠ none) (cpus : ∀ c', c' ≠ c → (m'.cpu c').pc = (m.cpu c').pc)
    (pc : (m'.cpu c).pc = .wake e back) : Wakes cfg m' := by
  refine wakes.frame graph (c := c) queue (fun x => ?_) (fun x away => ⟨blocks x, fun none => ?_⟩) cpus
    (fun x back is => absurd is (leave x back)) (by rw [pc]; trivial)
  · by_cases same : x = e
    · subst same
      exact Or.inr (Or.inr (Or.inr ⟨c, back, pc⟩))
    · exact Or.inl (others x same)
  · by_cases same : x = e
    · subst same
      exact absurd none released
    · rwa [others x same] at none

theorem wakes_move (graph : Graph cfg m.view) (sited : Sited cfg m.shelves) (waits : Waits cfg m) (wakes : Wakes cfg m)
    (move : Move cfg m c m') : Wakes cfg m' := by
  have owner : cfg.subtype (cfg.ec (m.cpu c).sc) ≠ .ecLocal := sited.bound (sited.current_created c)
  cases move with
  | stay => exact wakes
  | tick d => exact ⟨wakes.queued, wakes.reaches⟩
  | jump jump => exact wakes.jump graph jump
  | preempt pc => exact wakes.setCont graph waits (by rw [pc]; rfl) (by rw [pc]; rintro _ _ ⟨⟩) fun _ => trivial
  | help pc isLocal home busy alive =>
      exact wakes.setCont graph waits (by rw [pc]; rfl) (by rw [pc]; rintro _ _ ⟨⟩) fun _ => trivial
  | @rendezvous i t pc isLocal home free =>
      have settled : (m.cpu c).pc.settled = true := by rw [pc]; rfl
      obtain ⟨g, cont, notBlocking⟩ := waits.runs graph settled
      refine wakes.frame graph (c := c) (fun e => ?_) (fun e => ?_) (fun e away => ?_) (fun c' ne => by simp [ne])
        (fun e back is => ?_) ?_
      · rw [setCpu_ec, field_setEc Ec.queue (by rfl), field_setEc Ec.queue (by rfl)]
      · by_cases target : e = t
        · subst target
          exact Or.inr (Or.inr (Or.inl (by simp [free, isLocal])))
        · by_cases same : e = m.self c
          · subst same
            exact Or.inr (Or.inr (Or.inl (by simp [cont, notBlocking])))
          · exact Or.inl (by simp [target, same])
      · have same : e ≠ m.self c := by
          rintro rfl
          exact away (graph.home c)
        have target : e ≠ t := by
          rintro rfl
          exact away (home.symm.trans (graph.home c))
        simp [same, target]
      · rw [pc] at is
        cases is
      · simp [Reaches]
  | @enter e f a d g pc reached cont runs =>
      refine wakes.cpuOnly graph (c := c) rfl (fun c' ne => by simp [ne]) (fun e back is => ?_) ?_
      · rw [pc] at is
        cases is
      · simp [Reaches]
  | @look e f a d pc reached blocked =>
      refine wakes.cpuOnly graph (c := c) rfl (fun c' ne => by simp [ne]) (fun e back is => ?_) ?_
      · rw [pc] at is
        cases is
      · have reaches := wakes.reaches c
        rw [pc] at reaches
        simp only [setCpu_cpu, if_true]
        refine ⟨fun none => ?_, rfl⟩
        obtain rfl := start_of_follow graph reached none
        exact reaches none
  | unblocked pc cont runs =>
      refine wakes.cpuOnly graph (c := c) rfl (fun c' ne => by simp [ne]) (fun e back is => ?_) ?_
      · rw [pc] at is
        cases is
      · simp [Reaches]
  | @wait e a i pc blocked =>
      have reaches := wakes.reaches c
      rw [pc] at reaches
      have waiting : (m.ec e).cont = some .blocking ∨ ((m.ec e).cont = none ∧ cfg.subtype e ≠ .ecLocal) := by
        have either : (m.ec e).cont = none ∨ (m.ec e).cont = some .blocking := by simpa [Ec.blocked] using blocked
        rcases either with none | blocking
        · exact Or.inr ⟨none, reaches.1 none⟩
        · exact Or.inl blocking
      refine wakes.putQueue graph (c := c) waiting (fun x => by rw [after_ec]) (fun x => by simp) (fun x => ?_)
        (fun c' ne => by simp [ne]) (by rw [pc]; rintro _ _ ⟨⟩) ?_
      · rw [after_ec, Machine.putQueue, setSc_ec, field_setEc Ec.blocks (by rfl)]
      · cases a <;> simp [After.pc, Reaches]
  | @retire f pc caller =>
      have left : Wakes cfg ((m.setEc (m.self c) fun x => { x with cont := f }).goto c (.schedule true)) := by
        refine wakes.setCont graph waits ?_ ?_ fun _ => trivial
        · rcases pc with ⟨pc, -⟩ | ⟨pc, -⟩ <;> rw [pc] <;> rfl
        · rcases pc with ⟨pc, -⟩ | ⟨pc, -⟩ <;> rw [pc] <;> rintro _ _ ⟨⟩
      exact ⟨left.queued, left.reaches⟩
  | @donated a f g replies caller callee some =>
      obtain ⟨queue, cont, ecs⟩ := unlinked_ecs graph waits replies callee
      refine wakes.frame graph (c := c) queue (fun e => (cont e).imp_right fun h => Or.inr (Or.inl h)) ecs (fun c' ne => ?_)
        (fun e back is => ?_) ?_
      · simp [ne, unlinked]
      · rcases replies.pc with pc | pc <;> rw [pc] at is <;> cases is
      · simp [Reaches]
  | @helped a f h replies caller callee none =>
      obtain ⟨queue, cont, ecs⟩ := unlinked_ecs graph waits replies callee
      refine wakes.frame graph (c := c) queue (fun e => (cont e).imp_right fun h => Or.inr (Or.inl h)) ecs (fun c' ne => ?_)
        (fun e back is => ?_) ?_
      · simp [ne, unlinked]
      · rcases replies.pc with pc | pc <;> rw [pc] at is <;> cases is
      · rw [goto_pc, if_pos rfl]
        exact fun _ => owner
  | @finish i pc token =>
      refine wakes.same graph (c := c) (fun e => ?_) (fun e => ?_) (fun e => ?_) (fun c' ne => by simp [ne])
        (by rw [pc]; rintro _ _ ⟨⟩) (by simp [Reaches])
      · rw [goto_ec, field_setEc Ec.queue (by rfl), setSm_ec]
      · rw [goto_ec, field_setEc Ec.cont (by rfl), setSm_ec]
      · rw [goto_ec, field_setEc Ec.blocks (by rfl), setSm_ec]
  | @cancel s pc =>
      refine wakes.same graph (c := c) (fun e => ?_) (fun e => ?_) (fun e => ?_) (fun c' ne => by simp [ne])
        (by rw [pc]; rintro _ _ ⟨⟩) (by simp [Reaches])
      · rw [goto_ec, field_setEc Ec.queue (by rfl)]
      · rw [goto_ec, field_setEc Ec.cont (by rfl)]
      · rw [goto_ec, field_setEc Ec.blocks (by rfl)]
  | block pc =>
      refine wakes.cpuOnly graph (c := c) rfl (fun c' ne => by simp [ne]) (fun e back is => ?_) ?_
      · rw [pc] at is
        cases is
      · simp [Reaches]
  | yield_ pc free home =>
      refine wakes.cpuOnly graph (c := c) rfl (fun c' ne => by simp [ne]) (fun e back is => ?_) ?_
      · rw [pc] at is
        cases is
      · simp [Reaches]
  | @dispatch t s rest pc head armed home =>
      refine wakes.cpuOnly graph (c := c) rfl (fun c' ne => by simp [ne]) (fun e back is => ?_) ?_
      · rw [pc] at is
        cases is
      · rw [pick_pc, if_pos rfl]
        exact fun _ => sited.bound (sited.ready_created (c := c) (p := (m.cpu c).prioTop) (by simp [shelves, head]))
  | @wake e back s rest pc head =>
      have here : ((m.takeQueue e s rest).put cfg c s).Waking e := ⟨c, back, by simpa using pc⟩
      constructor
      · intro x waiting
        by_cases same : x = e
        · subst same
          exact Or.inr (Or.inr here)
        · have kept : ((m.takeQueue e s rest).put cfg c s).ec x = m.ec x := by simp [takeQueue, same]
          rw [kept] at waiting ⊢
          refine (wakes.queued x waiting).imp_right fun h => h.imp_right fun waking => ?_
          exact waking.stay (c := c) (fun c' _ => by simp) fun back' is => by simpa using is
      · intro c'
        refine wakes.others graph (by simp) fun x _ => ?_
        rw [put_ec, takeQueue, setSc_ec, field_setEc Ec.blocks (by rfl), field_setEc Ec.cont (by rfl)]
        exact ⟨rfl, id⟩
  | @requeue t back s rest pc head home =>
      refine wakes.cpuOnly graph (c := c) rfl (fun c' ne => by simp) (fun e back is => ?_) ?_
      · rw [pc] at is
        cases is
      · simp [Reaches, pc]
  | @create s p creates new bound =>
      refine wakes.cpuOnly graph (c := c) (by simp) (fun c' ne => ?_) (fun e back is => ?_) ?_
      · rw [goto_pc, if_neg ne, pc_put]
      · cases creates with
        | hypercall pc =>
            rw [pc] at is
            cases is
        | root pc =>
            rw [pc] at is
            cases is
      · rw [goto_pc, if_pos rfl]
        cases creates <;> trivial
  | @take i zero pc positive =>
      refine wakes.same graph (c := c) (fun e => ?_) (fun e => ?_) (fun e => ?_) (fun c' ne => by simp [ne])
        (by rw [pc]; rintro _ _ ⟨⟩) (by simp [Reaches])
      · rw [goto_ec, field_setEc Ec.queue (by rfl), setSm_ec]
      · rw [goto_ec, field_setEc Ec.cont (by rfl), setSm_ec]
      · rw [goto_ec, field_setEc Ec.blocks (by rfl), setSm_ec]
  | @suspend i timed pc utcb zero =>
      refine wakes.frame graph (c := c) (fun e => ?_) (fun e => ?_) (fun e away => ?_) (fun c' ne => by simp [ne])
        (fun e back is => ?_) (by simp [Reaches])
      · rw [goto_ec, field_setEc Ec.queue (by rfl), setSm_ec]
      · by_cases same : e = m.self c
        · exact Or.inr (Or.inl (by simp [same]))
        · exact Or.inl (by simp [same])
      · have same : e ≠ m.self c := by
          rintro rfl
          exact away (graph.home c)
        simp [same]
      · rw [pc] at is
        cases is
  | @sleep i timed episode pc blocked free =>
      have blocking : (m.ec (m.self c)).cont = some .blocking := by
        have stands := graph.pc c
        rw [show m.view.pc c = _ from pc] at stands
        refine stands.resolve_right fun is => ?_
        simp [Ec.blocked, show (m.ec (m.self c)).cont = _ from is] at blocked
      refine wakes.putQueue graph (c := c) (e := m.self c) (s := (m.cpu c).sc) (Or.inl blocking) (fun x => ?_) (fun x => ?_)
        (fun x => ?_) (fun c' ne => by simp [ne]) (by rw [pc]; rintro _ _ ⟨⟩) (by simp [Reaches])
      · rw [goto_ec, field_setEc Ec.queue (by cases timed <;> rfl)]
      · rw [goto_ec, field_setEc Ec.cont (by cases timed <;> rfl), putQueue_cont]
      · rw [goto_ec, field_setEc Ec.blocks (by cases timed <;> rfl), Machine.putQueue, setSc_ec, field_setEc Ec.blocks (by rfl)]
  | @count i back raises empty below =>
      refine wakes.cpuOnly graph (c := c) rfl (fun c' ne => by simp [ne]) (fun e back' is => absurd is (raises.not_wake e back')) ?_
      rw [goto_pc, if_pos rfl]
      cases back <;> trivial
  | @release i back e rest raises head =>
      refine wakes.unblock (e := e) (c := c) graph raises.not_wake (fun x => ?_) (fun x ne => ?_) (fun x => ?_) (by simp)
        (fun c' ne => by simp [ne]) (by rw [goto_pc, if_pos rfl])
      · rw [goto_ec, field_setEc Ec.queue (by rfl), setSm_ec]
      · simp [ne]
      · rw [goto_ec, field_setEc Ec.blocks (by rfl), setSm_ec]
  | @stale x back e i enabled set home awake =>
      refine wakes.same graph (c := c) (fun e => ?_) (fun e => ?_) (fun e => ?_) (fun c' ne => by simp [ne])
        (not_wake_of_resume enabled) ?_
      · rw [goto_ec, field_setEc Ec.queue (by rfl)]
      · rw [goto_ec, field_setEc Ec.cont (by rfl)]
      · rw [goto_ec, field_setEc Ec.blocks (by rfl)]
      · rw [goto_pc, if_pos rfl]
        cases back <;> trivial
  | @timeout x back e i enabled set home blocked member =>
      refine wakes.unblock (e := e) (c := c) graph (not_wake_of_resume enabled) (fun x => ?_) (fun x ne => ?_) (fun x => ?_)
        (by simp) (fun c' ne => by simp [ne]) (by rw [goto_pc, if_pos rfl])
      · rw [goto_ec, field_setEc Ec.queue (by rfl), setSm_ec]
      · simp [ne]
      · rw [goto_ec, field_setEc Ec.blocks (by rfl), setSm_ec]
  | @sched x back armed enabled kept =>
      refine wakes.cpuOnly graph (c := c) rfl (fun c' ne => by simp [ne])
        (fun e back' is => absurd is (not_wake_of_resume enabled e back')) ?_
      simp only [setCpu_cpu, if_true]
      cases back <;> trivial

theorem wakes_init (cfg : Config n k) (root : Option (Fin n)) (vm : Msg) (count : Nat → Nat) :
    Wakes cfg (init cfg root vm count) :=
  ⟨fun _ ne => absurd rfl ne, fun _ => trivial⟩

end Machine

end Nova.Kernel.Contexts
