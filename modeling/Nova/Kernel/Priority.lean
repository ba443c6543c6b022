/-
# Nova.Kernel.Priority — the ready queues

`Topped` says that `prio_top` is the highest priority whose ready queue is not empty, or 0;
`Ready::enqueue` and `Ready::dequeue` keep it.  `Ranked` adds what the scheduler makes of it:
outside of its loop, an SC that is more important than the current one is ready only while
`Hazard::SCHED` is set; and the idle SC of a CPU is ready, or runs in the idle EC, so that
the loop always finds an SC.
-/
import Nova.Kernel.Semaphore

namespace Nova.Kernel.Contexts

open Nova.Theory.Chains

set_option autoImplicit false

variable {n k : Nat}

/-- `prio_top` is the highest priority with an SC, or 0. -/
structure Topped (ready : Nat → List Nat) (top : Nat) : Prop where
  above : ∀ p, top < p → ready p = []
  top : ready top = [] → top = 0

namespace Topped

variable {ready : Nat → List Nat} {top : Nat}

/-- `Ready::enqueue` -/
theorem enqueue (topped : Topped ready top) {p : Nat} {q : List Nat} (filled : q ≠ []) :
    Topped (Function.update ready p q) (if p > top then p else top) := by
  constructor
  · intro x higher
    have above : p < x ∧ top < x := by
      split at higher <;> omega
    rw [Function.update_of_ne (Nat.ne_of_gt above.1)]
    exact topped.above x above.2
  · intro empty
    split at empty
    · rw [Function.update_self] at empty
      exact absurd empty filled
    · rename_i notHigher
      rw [if_neg notHigher]
      by_cases same : top = p
      · subst same
        rw [Function.update_self] at empty
        exact absurd empty filled
      · rw [Function.update_of_ne same] at empty
        exact topped.top empty

theorem lower (above : ∀ p, top < p → ready p = []) : Topped ready (Machine.lowerTop ready top) := by
  induction top with
  | zero => exact ⟨above, fun _ => rfl⟩
  | succ p ih =>
      unfold Machine.lowerTop
      split
      · rename_i empty
        refine ih fun x higher => ?_
        by_cases same : x = p + 1
        · rw [same]
          exact empty
        · exact above x (by omega)
      · rename_i filled
        exact ⟨above, fun empty => absurd empty filled⟩

/-- `Ready::dequeue` -/
theorem dequeue (topped : Topped ready top) (rest : List Nat) :
    Topped (Function.update ready top rest) (Machine.lowerTop (Function.update ready top rest) top) := by
  refine lower fun p higher => ?_
  rw [Function.update_of_ne (Nat.ne_of_gt higher)]
  exact topped.above p higher

/-- A queue that is not empty is not above `prio_top`. -/
theorem head (topped : Topped ready top) {p : Nat} (filled : ready p ≠ []) : ready top ≠ [] := by
  intro empty
  have zero := topped.top empty
  subst zero
  rcases Nat.eq_zero_or_pos p with rfl | positive
  · exact filled empty
  · exact filled (topped.above p positive)

end Topped

/-- The part of a CPU that decides which SC runs next -/
structure Rank where
  ready : Nat → List Nat
  prioTop : Nat
  sched : Bool
  sc : Nat

def Cpu.rank (x : Cpu n) : Rank where
  ready := x.ready
  prioTop := x.prioTop
  sched := x.sched
  sc := x.sc

/-- The places in the loop of `schedule` -/
def Pc.inLoop : Pc n → Bool
  | .loop _ => true
  | _ => false

namespace Machine

variable (cfg : Config n k) (m : Machine n k)

/-- Where the idle SC runs -/
def IdlesAt (c : Fin k) (e : Fin n) : Pc n → Prop
  | .activate f _ => f = cfg.idleEc c
  | .schedule true | .loop _ | .blockSc _ _ _ => False
  | _ => e = cfg.idleEc c

structure Ranked : Prop where
  topped : ∀ c, Topped (m.cpu c).ready (m.cpu c).prioTop
  urgent : ∀ c, (m.cpu c).pc.inLoop = false → ∀ p, cfg.prio (m.cpu c).sc < p → (m.cpu c).ready p ≠ [] →
    (m.cpu c).sched = true
  user : ∀ c, (m.cpu c).pc = .user → (m.cpu c).sched = false
  idle : ∀ c, cfg.idleSc c ∈ (m.cpu c).ready 0 ∨ (m.cpu c).sc = cfg.idleSc c ∧ IdlesAt cfg c (m.self c) (m.cpu c).pc

variable {cfg m} {m' : Machine n k} {c : Fin k}

namespace Ranked

/-- A step that changes no ready queue -/
theorem frame (ranked : Ranked cfg m) (rank : ∀ c', (m'.cpu c').rank = (m.cpu c').rank)
    (cpus : ∀ c', c' ≠ c → m'.self c' = m.self c' ∧ (m'.cpu c').pc = (m.cpu c').pc)
    (outside : (m'.cpu c).pc.inLoop = false → (m.cpu c).pc.inLoop = false)
    (user : (m'.cpu c).pc = .user → (m.cpu c).sched = false)
    (idle : (m.cpu c).sc = cfg.idleSc c → IdlesAt cfg c (m.self c) (m.cpu c).pc →
      IdlesAt cfg c (m'.self c) (m'.cpu c).pc) : Ranked cfg m' := by
  have ready : ∀ c', (m'.cpu c').ready = (m.cpu c').ready := fun c' => congrArg Rank.ready (rank c')
  have top : ∀ c', (m'.cpu c').prioTop = (m.cpu c').prioTop := fun c' => congrArg Rank.prioTop (rank c')
  have sched : ∀ c', (m'.cpu c').sched = (m.cpu c').sched := fun c' => congrArg Rank.sched (rank c')
  have sc : ∀ c', (m'.cpu c').sc = (m.cpu c').sc := fun c' => congrArg Rank.sc (rank c')
  refine ⟨fun c' => ?_, fun c' => ?_, fun c' => ?_, fun c' => ?_⟩
  · rw [ready, top]
    exact ranked.topped c'
  · rw [ready, sched, sc]
    intro notLoop
    refine ranked.urgent c' ?_
    by_cases same : c' = c
    · subst same
      exact outside notLoop
    · rwa [(cpus c' same).2] at notLoop
  · rw [sched]
    by_cases same : c' = c
    · subst same
      exact user
    · rw [(cpus c' same).2]
      exact ranked.user c'
  · rw [ready, sc]
    refine (ranked.idle c').imp_right fun ⟨is, place⟩ => ⟨is, ?_⟩
    by_cases same : c' = c
    · subst same
      exact idle is place
    · rw [(cpus c' same).1, (cpus c' same).2]
      exact place

/-- A step that changes CPU `c` only -/
theorem update (ranked : Ranked cfg m) (others : ∀ c', c' ≠ c → m'.cpu c' = m.cpu c')
    (topped : Topped (m'.cpu c).ready (m'.cpu c).prioTop)
    (urgent : (m'.cpu c).pc.inLoop = false → ∀ p, cfg.prio (m'.cpu c).sc < p → (m'.cpu c).ready p ≠ [] →
      (m'.cpu c).sched = true)
    (user : (m'.cpu c).pc = .user → (m'.cpu c).sched = false)
    (idle : cfg.idleSc c ∈ (m'.cpu c).ready 0 ∨ (m'.cpu c).sc = cfg.idleSc c ∧ IdlesAt cfg c (m'.self c) (m'.cpu c).pc) :
    Ranked cfg m' := by
  refine ⟨fun c' => ?_, fun c' => ?_, fun c' => ?_, fun c' => ?_⟩
  · by_cases same : c' = c
    · subst same
      exact topped
    · rw [others c' same]
      exact ranked.topped c'
  · by_cases same : c' = c
    · subst same
      exact urgent
    · rw [others c' same]
      exact ranked.urgent c'
  · by_cases same : c' = c
    · subst same
      exact user
    · rw [others c' same]
      exact ranked.user c'
  · by_cases same : c' = c
    · subst same
      exact idle
    · rw [self, others c' same]
      exact ranked.idle c'

/-- `Ready::enqueue` outside of the loop -/
theorem putReady (ranked : Ranked cfg m) (notUser : (m.cpu c).pc ≠ .user) (s t : Nat) : Ranked cfg (m.putReady cfg c s t) := by
  have others : ∀ c', c' ≠ c → (m.putReady cfg c s t).cpu c' = m.cpu c' := by
    intro c' ne
    simp [Machine.putReady, ne]
  have ready : ((m.putReady cfg c s t).cpu c).ready = Function.update (m.cpu c).ready (cfg.prio s)
      (if (m.sc s).left ≠ 0 then s :: (m.cpu c).ready (cfg.prio s) else (m.cpu c).ready (cfg.prio s) ++ [s]) := by
    simp [Machine.putReady]
  have top : ((m.putReady cfg c s t).cpu c).prioTop =
      if cfg.prio s > (m.cpu c).prioTop then cfg.prio s else (m.cpu c).prioTop := by
    simp [Machine.putReady]
  have sc : ((m.putReady cfg c s t).cpu c).sc = (m.cpu c).sc := by
    simp [Machine.putReady]
  have sched : (m.cpu c).sched = true ∨ cfg.prio (m.cpu c).sc < cfg.prio s →
      ((m.putReady cfg c s t).cpu c).sched = true := by
    intro either
    simp only [Machine.putReady, setSc_cpu, setCpu_cpu, if_true, Bool.or_eq_true, decide_eq_true_eq]
    exact either.imp_right Or.inl
  refine ranked.update others ?_ (fun notLoop p higher filled => ?_) (fun isUser => ?_) ?_
  · rw [ready, top]
    refine (ranked.topped c).enqueue ?_
    split <;> simp
  · rw [pc_putReady] at notLoop
    rw [ready] at filled
    rw [sc] at higher
    by_cases level : p = cfg.prio s
    · subst level
      exact sched (Or.inr higher)
    · rw [Function.update_of_ne level] at filled
      exact sched (Or.inl (ranked.urgent c notLoop p higher filled))
  · rw [pc_putReady] at isUser
    exact absurd isUser notUser
  · rw [putReady_self, pc_putReady, ready, sc]
    refine (ranked.idle c).imp_left fun member => ?_
    by_cases level : 0 = cfg.prio s
    · rw [← level, Function.update_self]
      split <;> simp [member]
    · rw [Function.update_of_ne level]
      exact member

theorem put (ranked : Ranked cfg m) (notUser : (m.cpu c).pc ≠ .user) (s : Nat) : Ranked cfg (m.put cfg c s) := by
  unfold Machine.put
  split
  · exact ranked.putReady notUser s _
  · have rank : ∀ c', ((m.putRelease cfg s).cpu c').rank = (m.cpu c').rank := by
      intro c'
      by_cases same : c' = cfg.scCpu s
      · subst same
        simp [putRelease, Cpu.rank]
      · simp [putRelease, same]
    refine ranked.frame (c := c) rank (fun c' _ => ⟨by simp, by simp⟩) ?_ ?_ ?_
    · rw [pc_putRelease]
      exact id
    · rw [pc_putRelease]
      exact fun is => absurd is notUser
    · rw [pc_putRelease, putRelease_self]
      exact fun _ => id

end Ranked

/-- An EC that executes code of its own is not the idle EC. -/
theorem active_ne_idle (graph : Graph cfg m.view) (active : m.view.Active c) : m.self c ≠ cfg.idleEc c := by
  intro is
  have idle : (m.ec (m.self c)).cont = some .idle := by
    refine (graph.idle _).mpr ?_
    rw [is, Config.Idle, cfg.idle_cpu]
  exact (cont_of_active active).2 idle

theorem IdlesAt.resume {p : Pc n} {x : Msg} {back : Back n} {e : Fin n} (enabled : p.resume x = some back)
    (place : IdlesAt cfg c e p) : e = cfg.idleEc c := by
  cases p with
  | user => exact place
  | halt => exact place
  | help t => exact place
  | pause => exact place
  | hazard f => exact place
  | _ => cases enabled

theorem IdlesAt.back {back : Back n} {e : Fin n} (is : e = cfg.idleEc c) : IdlesAt cfg c e back.pc := by
  cases back <;> exact is

theorem Ranked.jump (ranked : Ranked cfg m) (graph : Graph cfg m.view) {p : Pc n} (jump : Jump cfg m c (m.cpu c).pc p) :
    Ranked cfg (m.goto c p) := by
  have stands := graph.pc c
  rw [show m.view.pc c = (m.cpu c).pc from rfl] at stands
  refine ranked.frame (c := c) (fun c' => ?_) (fun c' ne => by simp [ne]) ?_ ?_ ?_
  · by_cases same : c' = c
    · subst same
      simp [Cpu.rank]
    · simp [same]
  · intro _
    generalize (m.cpu c).pc = q at jump
    cases q with
    | loop t =>
        cases jump with
        | rrq enabled => cases enabled
        | resume enabled => cases enabled
    | _ => rfl
  · rw [goto_pc, if_pos rfl]
    generalize (m.cpu c).pc = q at jump
    cases jump with
    | user r free => exact fun _ => free
    | pass f free => exact fun _ => free
    | woken e back empty => cases back <;> nofun
    | requeued t back empty => cases back <;> nofun
    | @resume _ _ back enabled => cases back <;> nofun
    | _ => nofun
  · rw [goto_pc, if_pos rfl, goto_self]
    intro _
    generalize (m.cpu c).pc = q at jump stands
    cases jump with
    | help t => exact fun is => absurd is (active_ne_idle graph stands.1)
    | pass f free => cases f <;> exact id
    | woken e back empty => cases back <;> exact id
    | requeued t back empty => cases back <;> exact id
    | rrq enabled => exact IdlesAt.resume enabled
    | resume enabled => exact fun place => IdlesAt.back (IdlesAt.resume enabled place)
    | _ => exact id

theorem goto_rank (x : Machine n k) (p : Pc n) (c' : Fin k) : ((x.goto c p).cpu c').rank = (x.cpu c').rank :=
  field_setCpu Cpu.rank rfl c'

theorem idle_cont (graph : Graph cfg m.view) : (m.ec (cfg.idleEc c)).cont = some .idle := by
  refine (graph.idle _).mpr ?_
  rw [Config.Idle, cfg.idle_cpu]

/-- The chain of the idle EC is the idle EC. -/
theorem idle_follow (graph : Graph cfg m.view) {f : Fin n} {d : Nat}
    (reached : follow (fun x => (m.ec x).callee) n (cfg.idleEc c) = some (f, d)) : f = cfg.idleEc c := by
  have hops : hop m.view.callee d (cfg.idleEc c) = some f := (follow_eq_some reached).1
  cases d with
  | zero => exact (Option.some.inj hops).symm
  | succ d =>
      obtain ⟨x, callee, -⟩ := Option.bind_eq_some_iff.mp hops
      obtain ⟨-, -, r, cont⟩ := graph.callee _ _ callee
      rw [show m.view.cont (cfg.idleEc c) = _ from idle_cont graph] at cont
      cases cont

/-- The idle EC neither replies nor is killed. -/
theorem ends_ne_idle (graph : Graph cfg m.view) (pc : (m.cpu c).pc = .user ∨ (m.cpu c).pc = .kill) :
    ¬ IdlesAt cfg c (m.self c) (m.cpu c).pc := by
  have stands := graph.pc c
  rw [show m.view.pc c = (m.cpu c).pc from rfl] at stands
  rcases pc with pc | pc
  · rw [pc] at stands ⊢
    exact active_ne_idle graph stands
  · rw [pc] at stands ⊢
    obtain ⟨f, cont, -, notIdle⟩ := stands
    intro is
    have is : m.self c = cfg.idleEc c := is
    rw [show m.view.cont (m.view.current c) = (m.ec (m.self c)).cont from rfl, is, idle_cont graph] at cont
    exact notIdle (Option.some.inj cont).symm

theorem inLoop_of_settled {p : Pc n} (settled : p.settled = true) : p.inLoop = false := by
  cases p with
  | loop t => cases settled
  | _ => rfl

theorem Raises.idle {back : Back n} (raises : Raises cfg m c back) (place : IdlesAt cfg c (m.self c) (m.cpu c).pc) :
    m.self c = cfg.idleEc c := by
  cases raises with
  | hypercall pc utcb =>
      rw [pc] at place
      exact place
  | gsi enabled => exact IdlesAt.resume enabled place

/-- Steps that only change ECs, semaphores and the place of the CPU -/
theorem Ranked.place (ranked : Ranked cfg m) (rank : ∀ c', (m'.cpu c').rank = (m.cpu c').rank)
    (cpus : ∀ c', c' ≠ c → m'.self c' = m.self c' ∧ (m'.cpu c').pc = (m.cpu c').pc)
    (outside : (m.cpu c).pc.inLoop = false) (notUser : (m'.cpu c).pc ≠ .user)
    (idle : IdlesAt cfg c (m.self c) (m.cpu c).pc → IdlesAt cfg c (m'.self c) (m'.cpu c).pc) : Ranked cfg m' :=
  ranked.frame rank cpus (fun _ => outside) (fun is => absurd is notUser) fun _ => idle

theorem ranked_move (graph : Graph cfg m.view) (sited : Sited cfg m.shelves) (ranked : Ranked cfg m)
    (move : Move cfg m c m') : Ranked cfg m' := by
  have stands := graph.pc c
  rw [show m.view.pc c = (m.cpu c).pc from rfl] at stands
  have back_ne_user : ∀ back : Back n, back.pc ≠ .user := by
    intro back
    cases back <;> rintro ⟨⟩
  cases move with
  | stay => exact ranked
  | tick d => exact ⟨ranked.topped, ranked.urgent, ranked.user, ranked.idle⟩
  | jump jump => exact ranked.jump graph jump
  | preempt pc =>
      refine ranked.place (c := c) (goto_rank _ _) (fun c' ne => by simp [Machine.preempt, ne]) (by rw [pc]; rfl)
        (by simp [Machine.preempt]) ?_
      simp [Machine.preempt, pc, IdlesAt]
  | help pc isLocal home busy alive =>
      refine ranked.place (c := c) (goto_rank _ _) (fun c' ne => by simp [ne]) (by rw [pc]; rfl) (by simp) ?_
      simp [pc, IdlesAt]
  | @rendezvous i t pc isLocal home free =>
      rw [pc] at stands
      refine ranked.place (c := c) (fun c' => ?_) (fun c' ne => by simp [self, ne]) (by rw [pc]; rfl) (by simp) ?_
      · by_cases same : c' = c
        · subst same
          simp [Cpu.rank]
        · simp [same]
      · rw [pc]
        exact fun is => absurd is (active_ne_idle graph stands.1)
  | @enter e f a d g pc reached cont runs =>
      refine ranked.place (c := c) (fun c' => by rw [field_setCpu Cpu.rank (by rfl)]) (fun c' ne => by simp [self, ne]) (by rw [pc]; rfl) (by simp) ?_
      rw [pc]
      rintro rfl
      simpa [self, IdlesAt] using idle_follow graph reached
  | @look e f a d pc reached blocked =>
      refine ranked.place (c := c) (fun c' => by rw [field_setCpu Cpu.rank (by rfl)]) (fun c' ne => by simp [self, ne]) (by rw [pc]; rfl) (by simp) ?_
      rw [pc]
      rintro rfl
      rw [idle_follow graph reached, Ec.blocked, idle_cont graph] at blocked
      simp at blocked
  | @unblocked e a i g pc cont runs =>
      refine ranked.place (c := c) (fun c' => by rw [field_setCpu Cpu.rank (by rfl)]) (fun c' ne => by simp [self, ne]) (by rw [pc]; rfl) (by simp) ?_
      rw [pc]
      exact False.elim
  | @wait e a i pc blocked =>
      have rank : ∀ c', (((m.putQueue e (m.cpu c).sc).after c a).cpu c').rank = (m.cpu c').rank := by
        cases a with
        | schedule => exact goto_rank _ _
        | loop t =>
            intro c'
            rw [after, field_setCpu Cpu.rank (by rfl), putQueue_cpu]
      refine ranked.place (c := c) rank (fun c' ne => by simp [ne]) (by rw [pc]; rfl) (by cases a <;> simp [After.pc]) ?_
      rw [pc]
      exact False.elim
  | @retire f pc caller =>
      have either : (m.cpu c).pc = .user ∨ (m.cpu c).pc = .kill := pc.imp And.left And.left
      refine ranked.place (c := c) (goto_rank _ _) (fun c' ne => by simp [self, ne]) (by rcases either with pc | pc <;> rw [pc] <;> rfl)
        (by simp) fun place => ?_
      exact absurd place (ends_ne_idle graph either)
  | @donated a f g replies caller callee some =>
      refine ranked.place (c := c) (fun c' => ?_) (fun c' ne => by simp [self, unlinked, ne])
        (by rcases replies.pc with pc | pc <;> rw [pc] <;> rfl) (by simp) fun place => absurd place (ends_ne_idle graph replies.pc)
      rw [field_setCpu Cpu.rank (by rfl), unlinked, field_setCpu Cpu.rank (by rfl)]
      rfl
  | @helped a f h replies caller callee none =>
      refine ranked.place (c := c) (fun c' => ?_) (fun c' ne => by simp [self, unlinked, ne])
        (by rcases replies.pc with pc | pc <;> rw [pc] <;> rfl) (by simp) fun place => absurd place (ends_ne_idle graph replies.pc)
      rw [goto_rank, unlinked, field_setCpu Cpu.rank (by rfl)]
      rfl
  | @finish i pc token =>
      refine ranked.place (c := c) (goto_rank _ _) (fun c' ne => by simp [ne]) (by rw [pc]; rfl) (by simp) ?_
      simp [pc, IdlesAt]
  | @cancel s pc =>
      refine ranked.place (c := c) (goto_rank _ _) (fun c' ne => by simp [ne]) (by rw [pc]; rfl) (by simp) ?_
      simp [pc, IdlesAt]
  | block pc =>
      refine ranked.update (c := c) (fun c' ne => by simp [charge, ne]) ?_ ?_ ?_ (Or.inl ?_)
      · simpa [charge] using ranked.topped c
      · simp [Pc.inLoop]
      · simp
      · have idle := ranked.idle c
        rw [pc] at idle
        simpa [charge] using idle.resolve_right fun place => place.2
  | yield_ pc free home =>
      refine ranked.update (c := c) (fun c' ne => by simp [charge, Machine.putReady, ne]) ?_ ?_ ?_ (Or.inl ?_)
      · simp only [goto_cpu, if_true, Machine.putReady, setSc_cpu, setCpu_cpu, charge]
        refine (ranked.topped c).enqueue ?_
        split <;> simp
      · simp [Pc.inLoop]
      · simp
      · simp only [goto_cpu, if_true, Machine.putReady, setSc_cpu, setCpu_cpu, charge]
        rcases ranked.idle c with member | ⟨is, -⟩
        · by_cases level : 0 = cfg.prio (m.cpu c).sc
          · rw [← level, Function.update_self]
            split <;> simp [member]
          · rw [Function.update_of_ne level]
            exact member
        · rw [is, cfg.idle_prio, Function.update_self]
          split <;> simp
  | @dispatch t s rest pc head armed home =>
      have level : cfg.prio s = (m.cpu c).prioTop := sited.ready_prio (c := c) (by simp [shelves, head])
      refine ranked.update (c := c) (fun c' ne => by simp [Machine.pick, ne]) ?_ ?_ ?_ ?_
      · simpa [Machine.pick] using (ranked.topped c).dequeue rest
      · intro _ p higher filled
        simp only [Machine.pick, setCpu_cpu, setSc_cpu, if_true] at higher filled
        rw [level] at higher
        rw [Function.update_of_ne (Nat.ne_of_gt higher)] at filled
        exact absurd ((ranked.topped c).above p higher) filled
      · simp
      · rw [pick_pc, if_pos rfl]
        simp only [Machine.pick, setCpu_cpu, setSc_cpu, if_true]
        have idle := ranked.idle c
        rw [pc] at idle
        have member := idle.resolve_right fun place => place.2
        by_cases isIdle : s = cfg.idleSc c
        · exact Or.inr ⟨isIdle, by rw [isIdle, cfg.idle_ec]; rfl⟩
        · refine Or.inl ?_
          by_cases zero : 0 = (m.cpu c).prioTop
          · rw [← zero, Function.update_self]
            rw [← zero] at head
            rw [head] at member
            exact (List.mem_cons.mp member).resolve_left (Ne.symm isIdle)
          · rw [Function.update_of_ne zero]
            exact member
  | @wake e back s rest pc head =>
      have taken : Ranked cfg (m.takeQueue e s rest) := ⟨ranked.topped, ranked.urgent, ranked.user, ranked.idle⟩
      exact taken.put (by rw [takeQueue_cpu, pc]; rintro ⟨⟩) s
  | @requeue t back s rest pc head home =>
      have taken : Ranked cfg (m.takeRelease c s rest) := by
        refine ranked.place (c := c) (fun c' => ?_) (fun c' ne => by simp) (by rw [pc]; rfl) (by rw [takeRelease_pc, pc]; rintro ⟨⟩) ?_
        · rw [takeRelease, setSc_cpu, field_setCpu Cpu.rank (by rfl)]
        · rw [takeRelease_pc, takeRelease_self]
          exact id
      exact taken.putReady (by rw [takeRelease_pc, pc]; rintro ⟨⟩) s t
  | @create s p creates new bound =>
      rw [goto_put]
      have moved : Ranked cfg ({ m with created := s :: m.created }.goto c p) := by
        refine ranked.place (c := c) (goto_rank _ p) (fun c' ne => ?_) ?_ ?_ ?_
        · exact ⟨goto_self .., by rw [goto_pc, if_neg ne]⟩
        · cases creates with
          | hypercall pc => rw [pc]; rfl
          | root pc => rw [pc]; rfl
        · rw [goto_pc, if_pos rfl]
          cases creates <;> rintro ⟨⟩
        · rw [goto_pc, if_pos rfl, goto_self]
          cases creates with
          | hypercall pc =>
              rw [pc]
              exact id
          | root pc =>
              rw [pc]
              exact id
      refine moved.put ?_ s
      rw [goto_pc, if_pos rfl]
      cases creates <;> rintro ⟨⟩
  | @take i zero pc positive =>
      refine ranked.place (c := c) (goto_rank _ _) (fun c' ne => by simp [ne]) (by rw [pc]; rfl) (by simp) ?_
      simp [pc, IdlesAt]
  | @suspend i timed pc utcb zero =>
      refine ranked.place (c := c) (goto_rank _ _) (fun c' ne => by simp [ne]) (by rw [pc]; rfl) (by simp) ?_
      simp [pc, IdlesAt]
  | @sleep i timed episode pc blocked free =>
      rw [pc] at stands
      refine ranked.place (c := c) (goto_rank _ _) (fun c' ne => by simp [ne]) (by rw [pc]; rfl) (by simp) ?_
      rw [pc]
      intro is
      have is : m.self c = cfg.idleEc c := is
      have cont := idle_cont (c := c) graph
      rw [← is] at cont
      rcases stands with blocking | released
      · rw [show (m.ec (m.self c)).cont = _ from blocking] at cont
        cases cont
      · rw [show (m.ec (m.self c)).cont = _ from released] at cont
        cases cont
  | @count i back raises empty below =>
      refine ranked.place (c := c) (goto_rank _ _) (fun c' ne => by simp [ne]) (inLoop_of_settled raises.settled)
        (by simp [back_ne_user]) fun place => ?_
      rw [goto_pc, if_pos rfl, goto_self]
      exact IdlesAt.back (raises.idle place)
  | @release i back e rest raises head =>
      refine ranked.place (c := c) (goto_rank _ _) (fun c' ne => by simp [ne]) (inLoop_of_settled raises.settled)
        (by simp) fun place => ?_
      rw [goto_pc, if_pos rfl, goto_self]
      exact raises.idle place
  | @stale x back e i enabled set home awake =>
      refine ranked.place (c := c) (goto_rank _ _) (fun c' ne => by simp [ne]) (inLoop_of_settled (settled_of_resume enabled))
        (by simp [back_ne_user]) fun place => ?_
      rw [goto_pc, if_pos rfl, goto_self]
      exact IdlesAt.back (IdlesAt.resume enabled place)
  | @timeout x back e i enabled set home blocked member =>
      refine ranked.place (c := c) (goto_rank _ _) (fun c' ne => by simp [ne]) (inLoop_of_settled (settled_of_resume enabled))
        (by simp) fun place => ?_
      rw [goto_pc, if_pos rfl, goto_self]
      exact IdlesAt.resume enabled place
  | @sched x back armed enabled kept =>
      refine ranked.update (c := c) (fun c' ne => by simp [ne]) ?_ ?_ ?_ ?_
      · simpa using ranked.topped c
      · simp
      · simp [back_ne_user]
      · simp only [setCpu_cpu, if_true, self]
        exact (ranked.idle c).imp_right (And.imp_right fun place => IdlesAt.back (IdlesAt.resume enabled place))

theorem ranked_init (cfg : Config n k) (root : Option (Fin n)) (vm : Msg) (count : Nat → Nat) :
    Ranked cfg (init cfg root vm count) :=
  ⟨fun _ => ⟨fun _ _ => rfl, fun _ => rfl⟩, fun _ _ _ _ ne => absurd rfl ne, nofun, fun _ => Or.inr ⟨rfl, rfl⟩⟩

/-- The loop of `schedule` finds an SC. -/
theorem Ranked.ready (ranked : Ranked cfg m) {t : Nat} (pc : (m.cpu c).pc = .loop t) :
    (m.cpu c).ready (m.cpu c).prioTop ≠ [] := by
  have idle := ranked.idle c
  rw [pc] at idle
  have member := idle.resolve_right fun place => place.2
  exact (ranked.topped c).head (p := 0) (List.ne_nil_of_mem member)

end Machine

end Nova.Kernel.Contexts
