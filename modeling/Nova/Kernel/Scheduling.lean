/-
# Nova.Kernel.Scheduling — scheduling contexts in every run

What `Sited`, `Ranked` and `Timed` mean for the scheduler: each SC is at exactly one place,
the CPU runs the ready SC of the highest priority or is about to, and every interval of
time is charged to one SC.
-/
import Nova.Kernel.Safety

namespace Nova.Kernel.Contexts

open Nova.Theory.Chains
open Nova.Theory.Runs

set_option autoImplicit false

variable {n k : Nat}

namespace Machine

/-! ## Places -/

/-- The SC is at the place `l`. -/
def At (cfg : Config n k) (m : Machine n k) (s : Nat) : Loc n → Prop
  | .current => (m.cpu (cfg.scCpu s)).sc = s ∧ (m.cpu (cfg.scCpu s)).pc.holds = true
  | .ready => s ∈ (m.cpu (cfg.scCpu s)).ready (cfg.prio s)
  | .release => s ∈ (m.cpu (cfg.scCpu s)).release
  | .queue e => s ∈ (m.ec e).queue
  | .retired => s ∈ m.retired
  | .unborn | .hand => False

/-- Every SC is at exactly one place, and in a queue of its own CPU and priority. -/
structure Conserves (cfg : Config n k) (m : Machine n k) : Prop where
  one : ∀ s ∈ m.created, ∃! l, m.At cfg s l
  ready : ∀ c p, ∀ s ∈ (m.cpu c).ready p, cfg.scCpu s = c ∧ cfg.prio s = p
  release : ∀ c, ∀ s ∈ (m.cpu c).release, cfg.scCpu s = c
  once : (∀ c p, ((m.cpu c).ready p).Nodup) ∧ (∀ c, (m.cpu c).release.Nodup) ∧ ∀ e, (m.ec e).queue.Nodup
  owner : ∀ c, cfg.scCpu (m.cpu c).sc = c
  queued : ∀ s, (m.sc s).queued = true ↔ m.At cfg s .ready ∨ m.At cfg s .release ∨ ∃ e, m.At cfg s (.queue e)
  blocked : ∀ c, (m.sc (m.cpu c).sc).queued = true → (m.cpu c).pc = .schedule true ∨ ∃ t, (m.cpu c).pc = .loop t
  retires : ∀ c event m', m.step cfg c event = .ok m' → m'.retired = m.retired ∨
    m'.retired = (m.cpu c).sc :: m.retired ∧ (m.ec (m.self c)).caller = none ∧
      ((m.cpu c).pc = .user ∧ (m'.ec (m.self c)).cont = none ∨ (m.cpu c).pc = .kill ∧ (m'.ec (m.self c)).cont = some .dead)
  permanent : ∀ s ∈ m.retired, ∀ later, ∃ m', m.exec cfg later = .ok m' ∧ s ∈ m'.retired

variable {cfg : Config n k} {count : Nat → Nat} {m m' : Machine n k} {c : Fin k}

theorem at_iff {loc : Nat → Loc n} (placed : Placed cfg m.shelves loc) {s : Nat} (born : s ∈ m.created)
    (settled : loc s ≠ .hand) (l : Loc n) : m.At cfg s l ↔ l = loc s := by
  have site := placed.site s
  cases l with
  | unborn =>
      have exists_ : loc s ≠ .unborn := site.created.mp born
      exact ⟨nofun, fun is => exists_ is.symm⟩
  | hand => exact ⟨nofun, fun is => settled is.symm⟩
  | current =>
      have current := site.current
      constructor
      · intro at_
        exact (current.mp ⟨cfg.scCpu s, at_⟩).symm
      · intro is
        obtain ⟨c, same, holds⟩ := current.mpr is.symm
        have home : cfg.scCpu s = c := by
          rw [← same]
          exact placed.owner c
        rw [At, home]
        exact ⟨same, holds⟩
  | ready => exact (site.ready _ _).trans ⟨fun h => h.1.symm, fun is => ⟨is.symm, rfl, rfl⟩⟩
  | release => exact (site.release _).trans ⟨fun h => h.1.symm, fun is => ⟨is.symm, rfl⟩⟩
  | queue e => exact (site.queue e).trans eq_comm
  | retired => exact site.retired.trans eq_comm

theorem Move.retires (move : Move cfg m c m') : m'.retired = m.retired ∨
    m'.retired = (m.cpu c).sc :: m.retired ∧ (m.ec (m.self c)).caller = none ∧
      ((m.cpu c).pc = .user ∧ (m'.ec (m.self c)).cont = none ∨
        (m.cpu c).pc = .kill ∧ (m'.ec (m.self c)).cont = some .dead) := by
  cases move with
  | @retire f ends caller =>
      refine Or.inr ⟨rfl, caller, ?_⟩
      rcases ends with ⟨pc, rfl⟩ | ⟨pc, rfl⟩
      · exact Or.inl ⟨pc, by simp⟩
      · exact Or.inr ⟨pc, by simp⟩
  | @wait e a i pc blocked => exact Or.inl (by cases a <;> rfl)
  | @wake e back s rest pc queue =>
      left
      unfold put
      split <;> rfl
  | @create s p creates fresh bound =>
      left
      rw [goto_retired]
      unfold put
      split <;> rfl
  | _ => exact Or.inl rfl

theorem Sound.conserves (sound : Sound cfg count m) : m.Conserves cfg := by
  obtain ⟨loc, placed, settled⟩ := sound.sited
  refine ⟨fun s born => ⟨loc s, ?_, ?_⟩, fun c p s member => ?_, fun c s member => ?_,
    ⟨placed.readyNodup, placed.releaseNodup, placed.queueNodup⟩, placed.owner, fun s => ?_, fun c queued => ?_,
    fun c event m' done => ?_, fun s retired later => ?_⟩
  · exact (at_iff placed born (settled s) _).mpr rfl
  · intro l at_
    exact (at_iff placed born (settled s) l).mp at_
  · obtain ⟨-, home, prio⟩ := ((placed.site s).ready c p).mp member
    exact ⟨home, prio⟩
  · exact (((placed.site s).release c).mp member).2
  · have site := placed.site s
    rw [show (m.sc s).queued = m.shelves.queued s from rfl, site.queued]
    refine or_congr ?_ (or_congr ?_ (exists_congr fun e => ?_))
    · exact (show m.At cfg s .ready ↔ _ from (site.ready _ _).trans ⟨fun h => h.1, fun is => ⟨is, rfl, rfl⟩⟩).symm
    · exact (show m.At cfg s .release ↔ _ from (site.release _).trans ⟨fun h => h.1, fun is => ⟨is, rfl⟩⟩).symm
    · exact (show m.At cfg s (.queue e) ↔ _ from site.queue e).symm
  · cases pc : (m.cpu c).pc with
    | loop t => exact Or.inr ⟨t, rfl⟩
    | schedule b =>
        cases b with
        | true => exact Or.inl rfl
        | false =>
            have free := sound.sited.not_queued (c := c) (by show (m.cpu c).pc.holds = true; rw [pc]; rfl)
            rw [show m.shelves.queued (m.shelves.sc c) = true from queued] at free
            cases free
    | _ =>
        have free := sound.sited.not_queued (c := c) (by show (m.cpu c).pc.holds = true; rw [pc]; rfl)
        rw [show m.shelves.queued (m.shelves.sc c) = true from queued] at free
        cases free
  · obtain ⟨m₁, done₁, move, -⟩ := step_sound sound c event
    obtain rfl := Except.ok.inj (done₁.symm.trans done)
    exact move.retires
  · have keeps : ∀ (m m' : Machine n k) (c : Fin k), Sound cfg count m → Sound cfg count m' → s ∈ m.retired →
        Move cfg m c m' → s ∈ m'.retired := by
      intro m m' c _ _ member move
      rcases move.retires with same | ⟨more, -⟩
      · rw [same]
        exact member
      · rw [more]
        exact List.mem_cons_of_mem _ member
    obtain ⟨m', ran, -, kept⟩ := exec_keeps keeps sound retired later
    exact ⟨m', ran, kept⟩

/-- **Every SC is at exactly one place in every state of every run**, and no queue gets an SC that
is queued already. -/
theorem exec_conserves (cfg : Config n k) (root : Option (Fin n)) (vm : Msg) (count : Nat → Nat)
    (events : List (Fin k × Event n)) :
    ∃ m, (init cfg root vm count).exec cfg events = .ok m ∧ m.Conserves cfg := by
  obtain ⟨m, done, sound⟩ := exec_sound cfg root vm count events
  exact ⟨m, done, sound.conserves⟩

/-! ## Priorities -/

/-- The ready SC of the highest priority runs, or the next return to user mode schedules it. -/
structure Prioritizes (cfg : Config n k) (m : Machine n k) : Prop where
  top : ∀ c p, (m.cpu c).prioTop < p → (m.cpu c).ready p = []
  filled : ∀ c, (m.cpu c).prioTop ≠ 0 → (m.cpu c).ready (m.cpu c).prioTop ≠ []
  dequeue : ∀ c t, (m.cpu c).pc = .loop t → ∃ m' s rest, m.step cfg c .go = .ok m' ∧
    (m.cpu c).ready (m.cpu c).prioTop = s :: rest ∧ (∀ p, (m.cpu c).ready p ≠ [] → p ≤ cfg.prio s) ∧
      (m'.cpu c).sc = s ∧ (m'.cpu c).pc = .activate (cfg.ec s) (.loop t) ∧ ∀ p, (m'.cpu c).ready p ≠ [] → p ≤ cfg.prio s
  urgent : ∀ c, (m.cpu c).pc.inLoop = false → ∀ p, cfg.prio (m.cpu c).sc < p → (m.cpu c).ready p ≠ [] →
    (m.cpu c).sched = true
  user : ∀ c, (m.cpu c).pc = .user → (m.cpu c).sched = false
  leaves : ∀ c r, (m.cpu c).pc = .ret r → (m.cpu c).sched = true → m.step cfg c .go = .ok (m.goto c (.hazard (.user r)))
  yields : ∀ c f, (m.cpu c).pc = .hazard f → (m.cpu c).sched = true → ∃ m', m.step cfg c .go = .ok m' ∧
    (m'.cpu c).pc = .schedule false
  enqueue : ∀ c s t m', m.readyEnqueue cfg c s t = .ok m' → (m'.cpu c).ready = Function.update (m.cpu c).ready (cfg.prio s)
    (if (m.sc s).left ≠ 0 then s :: (m.cpu c).ready (cfg.prio s) else (m.cpu c).ready (cfg.prio s) ++ [s])
  reinsert : ∀ c, (m.cpu c).pc = .schedule false → ∃ m', m.step cfg c .go = .ok m' ∧
    let s := (m.cpu c).sc
    (m'.cpu c).ready = Function.update (m.cpu c).ready (cfg.prio s) (if (m.cpu c).deadline - m.now ≠ 0
      then s :: (m.cpu c).ready (cfg.prio s) else (m.cpu c).ready (cfg.prio s) ++ [s])

/-- The loop of `schedule` takes an SC of the highest priority. -/
theorem Sound.dequeue (sound : Sound cfg count m) {t : Nat} (pc : (m.cpu c).pc = .loop t) :
    ∃ m' s rest, m.step cfg c .go = .ok m' ∧ (m.cpu c).ready (m.cpu c).prioTop = s :: rest ∧
      (∀ p, (m.cpu c).ready p ≠ [] → p ≤ cfg.prio s) ∧ m' = m.pick cfg c t s rest := by
  obtain ⟨m', done, -, -⟩ := step_sound sound c .go
  have result : m.dispatch cfg c t = .ok m' := by
    rw [← done]
    simp only [step, go, pc]
  unfold dispatch at result
  dsimp only at result
  split at result
  · cases result
  · rename_i s rest queue
    have prio : cfg.prio s = (m.cpu c).prioTop := by
      refine sound.sited.ready_prio (c := c) ?_
      show s ∈ (m.cpu c).ready (m.cpu c).prioTop
      rw [queue]
      exact List.mem_cons_self
    refine ⟨m', s, rest, done, queue, fun p some => ?_, ?_⟩
    · rw [prio]
      by_contra above
      exact some ((sound.ranked.topped c).above p (Nat.lt_of_not_le above))
    · split at result
      · cases result
      · split at result
        · cases result
        · exact (Except.ok.inj result).symm

theorem yields_of_sched {f : Func} (pc : (m.cpu c).pc = .hazard f) (sched : (m.cpu c).sched = true) :
    m.step cfg c .go = .ok (m.preempt c f) := by
  simp only [step, go, pc, sched, if_true]

/-- `schedule(false)` charges the current SC and enqueues it. -/
theorem Sound.yields (sound : Sound cfg count m) (pc : (m.cpu c).pc = .schedule false) :
    m.step cfg c .go = .ok (((m.charge c).putReady cfg c (m.cpu c).sc m.now).goto c (.loop m.now)) := by
  have free : (m.sc (m.cpu c).sc).queued = false := sound.sited.not_queued (c := c) (by show (m.cpu c).pc.holds = true; rw [pc]; rfl)
  have owner : cfg.scCpu (m.cpu c).sc = c := sound.sited.owner c
  have free' : ((m.charge c).sc (m.cpu c).sc).queued = false := by simpa [Machine.charge] using free
  have put : (m.charge c).readyEnqueue cfg c (m.cpu c).sc m.now = .ok ((m.charge c).putReady cfg c (m.cpu c).sc m.now) := by
    unfold readyEnqueue
    rw [if_neg (not_not.mpr owner), if_neg (by rw [free']; exact Bool.false_ne_true)]
  have result : m.schedule cfg c false = ((m.charge c).readyEnqueue cfg c (m.cpu c).sc m.now).map (goto c (.loop m.now)) := by
    unfold schedule
    dsimp only
    rw [if_neg (by simp [free])]
    rfl
  simp only [step, go, pc]
  rw [result, put]
  rfl

theorem Sound.prioritizes (sound : Sound cfg count m) : m.Prioritizes cfg where
  top := fun c p above => (sound.ranked.topped c).above p above
  filled := fun c positive empty => positive ((sound.ranked.topped c).top empty)
  dequeue := by
    intro c t pc
    obtain ⟨m', s, rest, done, queue, highest, rfl⟩ := sound.dequeue pc
    refine ⟨_, s, rest, done, queue, highest, by simp [pick], by simp, fun p some => highest p fun none => some ?_⟩
    have prio : p ≠ (m.cpu c).prioTop := by
      rintro rfl
      rw [queue] at none
      cases none
    simpa [pick, prio] using none
  urgent := sound.ranked.urgent
  user := sound.ranked.user
  leaves := by
    intro c r pc sched
    simp only [step, go, pc, sched, if_true]
  yields := by
    intro c f pc sched
    exact ⟨_, yields_of_sched pc sched, by simp [preempt]⟩
  enqueue := by
    intro c s t m' done
    obtain ⟨rfl, -, -⟩ := ready_of_readyEnqueue done
    simp [putReady]
  reinsert := by
    intro c pc
    exact ⟨_, sound.yields pc, by simp [putReady, charge]⟩

/-- **In every state of every run the CPU runs an SC of the highest ready priority**, unless it is about
to schedule. -/
theorem exec_prioritizes (cfg : Config n k) (root : Option (Fin n)) (vm : Msg) (count : Nat → Nat)
    (events : List (Fin k × Event n)) :
    ∃ m, (init cfg root vm count).exec cfg events = .ok m ∧ m.Prioritizes cfg := by
  obtain ⟨m, done, sound⟩ := exec_sound cfg root vm count events
  exact ⟨m, done, sound.prioritizes⟩

/-! ## Time -/

/-- The time that the SCs of a CPU used, and the time that they have left -/
structure Accounts (cfg : Config n k) (m : Machine n k) : Prop where
  left : ∀ s, (m.sc s).left ≤ cfg.budget s
  refill : ∀ c event m' s, m.step cfg c event = .ok m' → (m'.sc s).left ≤ (m.sc s).left ∨
    (m'.sc s).left = cfg.budget s ∧ (m'.sc s).queued = true ∧
      ((m.sc s).left = 0 ∨ (m.cpu c).pc = .schedule false ∧ (m.cpu c).sc = s ∧ (m.cpu c).deadline ≤ m.now)
  deadline : ∀ c, (m.cpu c).pc.inLoop = false →
    (m.cpu c).deadline = (m.sc (m.cpu c).sc).last + (m.sc (m.cpu c).sc).left ∧ (m.sc (m.cpu c).sc).last ≤ m.now
  dispatched : ∀ c t, (m.cpu c).pc = .loop t → ∃ m', m.step cfg c .go = .ok m' ∧
    let s := (m'.cpu c).sc
    (m'.sc s).left = (m.sc s).left ∧ (m'.sc s).last = t ∧ (m'.cpu c).deadline = t + (m.sc s).left ∧ (m'.cpu c).armed = true
  descheduled : ∀ c b, (m.cpu c).pc = .schedule b → ∃ m', m.step cfg c .go = .ok m' ∧
    let s := (m.cpu c).sc
    let ran := m.now - (m.sc s).last
    (m'.sc s).used = (m.sc s).used + ran ∧
      (m'.sc s).left = if b = false ∧ (m.sc s).left - ran = 0 then cfg.budget s else (m.sc s).left - ran
  sum : ∀ c, (m.cpu c).pc.inLoop = false → m.usedOn cfg c + (m.now - (m.sc (m.cpu c).sc).last) = m.now
  loops : ∀ c t, (m.cpu c).pc = .loop t → m.usedOn cfg c + (m.now - t) = m.now

theorem putReady_left (cfg : Config n k) (m : Machine n k) (c : Fin k) (s t x : Nat) : ((m.putReady cfg c s t).sc x).left = (m.sc x).left ∨
    x = s ∧ (m.sc s).left = 0 ∧ ((m.putReady cfg c s t).sc x).left = cfg.budget s ∧
      ((m.putReady cfg c s t).sc x).queued = true := by
  by_cases same : x = s
  · subst same
    by_cases zero : (m.sc x).left = 0
    · exact Or.inr ⟨rfl, zero, by simp [putReady, zero], by simp [putReady]⟩
    · exact Or.inl (by simp [putReady, zero])
  · exact Or.inl (by simp [putReady, same])

theorem put_left (cfg : Config n k) (m : Machine n k) (c : Fin k) (s x : Nat) : ((m.put cfg c s).sc x).left = (m.sc x).left ∨
    x = s ∧ (m.sc s).left = 0 ∧ ((m.put cfg c s).sc x).left = cfg.budget s ∧ ((m.put cfg c s).sc x).queued = true := by
  unfold put
  split
  · exact putReady_left ..
  · exact Or.inl (by rw [putRelease, field_setSc Sc.left (by rfl), setCpu_sc])

/-- The time left after the current SC ran -/
theorem Sound.remaining (sound : Sound cfg count m) (outside : (m.cpu c).pc.inLoop = false) :
    (m.cpu c).deadline - m.now = (m.sc (m.cpu c).sc).left - (m.now - (m.sc (m.cpu c).sc).last) ∧
      (m.sc (m.cpu c).sc).last ≤ m.now := by
  have clocked := sound.timed.clocked c
  have deadline := clocked.deadline outside
  have stamp := clocked.stamp
  rw [stamp_of_notLoop outside] at stamp
  omega

theorem charge_left (sound : Sound cfg count m) (outside : (m.cpu c).pc.inLoop = false) (x : Nat) :
    ((m.charge c).sc x).left ≤ (m.sc x).left := by
  obtain ⟨remaining, -⟩ := sound.remaining outside
  by_cases same : x = (m.cpu c).sc
  · subst same
    simp only [charge, setCpu_sc, setSc_sc, if_true]
    omega
  · simp [charge, same]

/-- `left` grows only in `Ready::enqueue`. -/
theorem Move.left (move : Move cfg m c m') (sound : Sound cfg count m) (s : Nat) : (m'.sc s).left ≤ (m.sc s).left ∨
    (m'.sc s).left = cfg.budget s ∧ (m'.sc s).queued = true ∧
      ((m.sc s).left = 0 ∨ (m.cpu c).pc = .schedule false ∧ (m.cpu c).sc = s ∧ (m.cpu c).deadline ≤ m.now) := by
  cases move with
  | block pc => exact Or.inl (charge_left sound (by rw [pc]; rfl) s)
  | yield_ pc free home =>
      rw [goto_sc]
      rcases putReady_left cfg (m.charge c) c (m.cpu c).sc m.now s with same | ⟨rfl, zero, full, queued⟩
      · rw [same]
        exact Or.inl (charge_left sound (by rw [pc]; rfl) s)
      · refine Or.inr ⟨full, queued, Or.inr ⟨pc, rfl, ?_⟩⟩
        simp only [charge, setCpu_sc, setSc_sc, if_true] at zero
        omega
  | dispatch pc queue armed home => exact Or.inl (by rw [pick, setCpu_sc, field_setSc Sc.left (by rfl)])
  | @wake e back x rest pc queue =>
      have taken : ∀ s, ((m.takeQueue e x rest).sc s).left = (m.sc s).left := fun s => by
        rw [takeQueue, field_setSc Sc.left (by rfl), setEc_sc]
      rcases put_left cfg (m.takeQueue e x rest) c x s with same | ⟨rfl, zero, full, queued⟩
      · exact Or.inl (by rw [same, taken])
      · exact Or.inr ⟨full, queued, Or.inl (by rw [← taken, zero])⟩
  | @requeue t back x rest pc queue home =>
      have taken : ∀ s, ((m.takeRelease c x rest).sc s).left = (m.sc s).left := fun s => by
        rw [takeRelease, field_setSc Sc.left (by rfl), setCpu_sc]
      rcases putReady_left cfg (m.takeRelease c x rest) c x t s with same | ⟨rfl, zero, full, queued⟩
      · exact Or.inl (by rw [same, taken])
      · exact Or.inr ⟨full, queued, Or.inl (by rw [← taken, zero])⟩
  | @create x p creates fresh bound =>
      rw [goto_sc]
      rcases put_left cfg { m with created := x :: m.created } c x s with same | ⟨rfl, zero, full, queued⟩
      · exact Or.inl (by rw [same])
      · exact Or.inr ⟨full, queued, Or.inl zero⟩
  | @wait e a i pc blocked =>
      left
      rw [show ((m.putQueue e (m.cpu c).sc).after c a).sc = (m.putQueue e (m.cpu c).sc).sc by cases a <;> rfl, putQueue,
        field_setSc Sc.left (by rfl), setEc_sc]
  | sleep pc blocked clear =>
      exact Or.inl (by rw [goto_sc, setEc_sc, putQueue, field_setSc Sc.left (by rfl), setEc_sc])
  | _ => exact Or.inl (Nat.le_of_eq rfl)

theorem Sound.descheduled (sound : Sound cfg count m) {b : Bool} (pc : (m.cpu c).pc = .schedule b) :
    ∃ m', m.step cfg c .go = .ok m' ∧
      let s := (m.cpu c).sc
      let ran := m.now - (m.sc s).last
      (m'.sc s).used = (m.sc s).used + ran ∧
        (m'.sc s).left = if b = false ∧ (m.sc s).left - ran = 0 then cfg.budget s else (m.sc s).left - ran := by
  obtain ⟨remaining, -⟩ := sound.remaining (c := c) (by rw [pc]; rfl)
  cases b with
  | true =>
      refine ⟨(m.charge c).goto c (.loop m.now), ?_, ?_⟩
      · simp only [step, go, pc, schedule, Bool.not_true, Bool.false_and, Bool.false_eq_true, if_false, if_true]
        rfl
      · dsimp only
        simp only [goto_sc, charge, setCpu_sc, setSc_sc, if_true, remaining]
        simp
  | false =>
      refine ⟨_, sound.yields pc, ?_⟩
      dsimp only
      simp only [goto_sc, putReady, charge, setCpu_sc, setSc_sc, if_true, remaining]
      simp

theorem Sound.accounts (sound : Sound cfg count m) : m.Accounts cfg where
  left := sound.timed.left
  refill := by
    intro c event m' s done
    obtain ⟨m₁, done₁, move, -⟩ := step_sound sound c event
    obtain rfl := Except.ok.inj (done₁.symm.trans done)
    exact move.left sound s
  deadline := by
    intro c outside
    have stamp := (sound.timed.clocked c).stamp
    rw [stamp_of_notLoop outside] at stamp
    exact ⟨(sound.timed.clocked c).deadline outside, stamp⟩
  dispatched := by
    intro c t pc
    obtain ⟨m', s, rest, done, queue, -, rfl⟩ := sound.dequeue pc
    exact ⟨_, done, by simp [pick]⟩
  descheduled := fun c b pc => sound.descheduled pc
  sum := by
    intro c outside
    rw [← stamp_of_notLoop outside]
    exact sound.timed.sum c
  loops := by
    intro c t pc
    have sum := sound.timed.sum c
    rw [stamp, pc] at sum
    exact sum

/-- **Every interval of time is charged to one SC**, in every state of every run, and budgets are refilled
only when they are used up. -/
theorem exec_accounts (cfg : Config n k) (root : Option (Fin n)) (vm : Msg) (count : Nat → Nat)
    (events : List (Fin k × Event n)) :
    ∃ m, (init cfg root vm count).exec cfg events = .ok m ∧ m.Accounts cfg := by
  obtain ⟨m, done, sound⟩ := exec_sound cfg root vm count events
  exact ⟨m, done, sound.accounts⟩

end Machine

end Nova.Kernel.Contexts
