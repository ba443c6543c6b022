/-
# Nova.Kernel.Budget — time accounting

`Clocked` relates the time stamps of a CPU: while an SC runs, the deadline of the budget
timeout is the time of its dispatch plus what was left of its budget; in the loop of
`schedule` the time stamp `t` takes the place of `last`.  `Timed` adds that no SC has more
left than its budget, and that the time that the SCs of a CPU used is the time that passed
up to the stamp of the CPU.
-/
import Mathlib.Algebra.BigOperators.Group.Finset.Basic
import Nova.Kernel.Priority

namespace Nova.Kernel.Contexts

set_option autoImplicit false

variable {n k : Nat}

/-- The time account of an SC -/
structure Account where
  used : Nat
  left : Nat
  last : Nat

def Sc.account (s : Sc) : Account where
  used := s.used
  left := s.left
  last := s.last

/-- The SC that a CPU charges, and the time of its budget timeout -/
def Cpu.bill (x : Cpu n) : Nat × Nat := (x.sc, x.deadline)

/-- The time stamp of the loop of `schedule` from which `activate` was called -/
def Pc.pending : Pc n → Option Nat
  | .activate _ (.loop t) | .blockSc _ (.loop t) _ => some t
  | _ => none

namespace Machine

variable (cfg : Config n k) (m : Machine n k)

/-- The time up to which the CPU has charged its SCs -/
def stamp (c : Fin k) : Nat :=
  match (m.cpu c).pc with
  | .loop t => t
  | _ => (m.sc (m.cpu c).sc).last

/-- The time that the SCs of a CPU used -/
def usedOn (c : Fin k) : Nat := ∑ s ∈ m.created.toFinset with cfg.scCpu s = c, (m.sc s).used

structure Clocked (c : Fin k) : Prop where
  deadline : (m.cpu c).pc.inLoop = false → (m.cpu c).deadline = (m.sc (m.cpu c).sc).last + (m.sc (m.cpu c).sc).left
  pending : ∀ t, (m.cpu c).pc.pending = some t → (m.sc (m.cpu c).sc).last = t
  disarmed : (m.cpu c).pc.inLoop = true → (m.cpu c).armed = false
  stamp : m.stamp c ≤ m.now

structure Timed : Prop where
  left : ∀ s, (m.sc s).left ≤ cfg.budget s
  unborn : ∀ s, s ∉ m.created → (m.sc s).used = 0
  clocked : ∀ c, m.Clocked c
  sum : ∀ c, m.usedOn cfg c + (m.now - m.stamp c) = m.now

variable {cfg m} {m' : Machine n k} {c : Fin k}

theorem stamp_of_notLoop (outside : (m.cpu c).pc.inLoop = false) : m.stamp c = (m.sc (m.cpu c).sc).last := by
  unfold stamp
  split
  · rename_i t pc
    rw [pc] at outside
    cases outside
  · rfl

theorem usedOn_congr (created : m'.created = m.created) (used : ∀ s ∈ m.created, (m'.sc s).used = (m.sc s).used) (c : Fin k) :
    m'.usedOn cfg c = m.usedOn cfg c := by
  unfold usedOn
  rw [created]
  refine Finset.sum_congr rfl fun s member => used s ?_
  simpa using (Finset.mem_filter.mp member).1

namespace Timed

/-- A step that keeps the accounts and enters or leaves the loop on no CPU -/
theorem frame (timed : Timed cfg m) (accounts : ∀ s, (m'.sc s).account = (m.sc s).account) (now : m'.now = m.now)
    (created : m'.created = m.created) (bills : ∀ c', (m'.cpu c').bill = (m.cpu c').bill)
    (places : ∀ c', (m'.cpu c').pc = (m.cpu c').pc ∧ (m'.cpu c').armed = (m.cpu c').armed ∨
      ((m.cpu c').pc.inLoop = false ∧ (m'.cpu c').pc.inLoop = false) ∧
        ∀ t, (m'.cpu c').pc.pending = some t → (m.cpu c').pc.pending = some t) : Timed cfg m' := by
  have used : ∀ s, (m'.sc s).used = (m.sc s).used := fun s => congrArg Account.used (accounts s)
  have left : ∀ s, (m'.sc s).left = (m.sc s).left := fun s => congrArg Account.left (accounts s)
  have last : ∀ s, (m'.sc s).last = (m.sc s).last := fun s => congrArg Account.last (accounts s)
  have sc : ∀ c', (m'.cpu c').sc = (m.cpu c').sc := fun c' => congrArg Prod.fst (bills c')
  have deadline : ∀ c', (m'.cpu c').deadline = (m.cpu c').deadline := fun c' => congrArg Prod.snd (bills c')
  have stamp : ∀ c', m'.stamp c' = m.stamp c' := by
    intro c'
    rcases places c' with ⟨pc, -⟩ | ⟨⟨before, after⟩, -⟩
    · unfold Machine.stamp
      rw [pc, sc, last]
    · rw [stamp_of_notLoop before, stamp_of_notLoop after, sc, last]
  refine ⟨fun s => ?_, fun s new => ?_, fun c' => ⟨fun notLoop => ?_, fun t is => ?_, fun inside => ?_, ?_⟩, fun c' => ?_⟩
  · rw [left]
    exact timed.left s
  · rw [used]
    rw [created] at new
    exact timed.unborn s new
  · rw [sc, deadline, last, left]
    refine (timed.clocked c').deadline ?_
    rcases places c' with ⟨pc, -⟩ | ⟨⟨before, -⟩, -⟩
    · rwa [pc] at notLoop
    · exact before
  · rw [sc, last]
    refine (timed.clocked c').pending t ?_
    rcases places c' with ⟨pc, -⟩ | ⟨-, pending⟩
    · rwa [pc] at is
    · exact pending t is
  · rcases places c' with ⟨pc, armed⟩ | ⟨⟨-, after⟩, -⟩
    · rw [pc] at inside
      rw [armed]
      exact (timed.clocked c').disarmed inside
    · rw [after] at inside
      cases inside
  · rw [stamp, now]
    exact (timed.clocked c').stamp
  · rw [stamp, now, usedOn_congr created fun s _ => used s]
    exact timed.sum c'

/-- The CPU comes to a place that is not in the loop, from one that is not. -/
theorem place (timed : Timed cfg m) (accounts : ∀ s, (m'.sc s).account = (m.sc s).account) (now : m'.now = m.now)
    (created : m'.created = m.created) (bills : ∀ c', (m'.cpu c').bill = (m.cpu c').bill)
    (others : ∀ c', c' ≠ c → (m'.cpu c').pc = (m.cpu c').pc ∧ (m'.cpu c').armed = (m.cpu c').armed)
    (outside : (m.cpu c).pc.inLoop = false ∧ (m'.cpu c).pc.inLoop = false)
    (pending : ∀ t, (m'.cpu c).pc.pending = some t → (m.cpu c).pc.pending = some t) : Timed cfg m' := by
  refine timed.frame accounts now created bills fun c' => ?_
  by_cases same : c' = c
  · subst same
    exact Or.inr ⟨outside, pending⟩
  · exact Or.inl (others c' same)

/-- The account of an SC that is current nowhere -/
theorem setSc (timed : Timed cfg m) {s : Nat} {f : Sc → Sc} (free : ∀ c, (m.cpu c).sc ≠ s)
    (used : (f (m.sc s)).used = (m.sc s).used) (left : (f (m.sc s)).left ≤ cfg.budget s) : Timed cfg (m.setSc s f) := by
  have same : ∀ c, (m.setSc s f).sc (m.cpu c).sc = m.sc (m.cpu c).sc := fun c => by simp [free c]
  have stamp : ∀ c, (m.setSc s f).stamp c = m.stamp c := by
    intro c
    unfold Machine.stamp
    rw [setSc_cpu, same]
  refine ⟨fun x => ?_, fun x new => ?_, fun c => ⟨?_, ?_, (timed.clocked c).disarmed, ?_⟩, fun c => ?_⟩
  · by_cases here : x = s
    · subst here
      simpa using left
    · simpa [here] using timed.left x
  · rw [field_setSc Sc.used used]
    exact timed.unborn x new
  · rw [setSc_cpu, same]
    exact (timed.clocked c).deadline
  · rw [setSc_cpu, same]
    exact (timed.clocked c).pending
  · rw [stamp]
    exact (timed.clocked c).stamp
  · have sum : (m.setSc s f).usedOn cfg c = m.usedOn cfg c := by
      refine usedOn_congr ?_ (fun x _ => ?_) c
      · rfl
      · exact field_setSc Sc.used used x
    rw [stamp, sum]
    exact timed.sum c

/-- A step that only changes CPU `c` and accounts of its SCs -/
theorem update (timed : Timed cfg m) (sited : Sited cfg m.shelves)
    (accounts : ∀ s, cfg.scCpu s ≠ c → (m'.sc s).account = (m.sc s).account) (now : m'.now = m.now)
    (created : m'.created = m.created) (others : ∀ c', c' ≠ c → m'.cpu c' = m.cpu c')
    (left : ∀ s, cfg.scCpu s = c → (m'.sc s).left ≤ cfg.budget s)
    (unborn : ∀ s, s ∉ m.created → (m'.sc s).used = (m.sc s).used) (clocked : m'.Clocked c)
    (sum : m'.usedOn cfg c + (m.now - m'.stamp c) = m.now) : Timed cfg m' := by
  have away : ∀ c', c' ≠ c → cfg.scCpu (m.cpu c').sc ≠ c := by
    intro c' ne
    rw [show cfg.scCpu (m.cpu c').sc = c' from sited.owner c']
    exact ne
  have last : ∀ c', c' ≠ c → (m'.sc (m.cpu c').sc).last = (m.sc (m.cpu c').sc).last := fun c' ne =>
    congrArg Account.last (accounts _ (away c' ne))
  have stamp : ∀ c', c' ≠ c → m'.stamp c' = m.stamp c' := by
    intro c' ne
    unfold Machine.stamp
    rw [others c' ne, last c' ne]
  refine ⟨fun s => ?_, fun s new => ?_, fun c' => ?_, fun c' => ?_⟩
  · by_cases home : cfg.scCpu s = c
    · exact left s home
    · rw [show (m'.sc s).left = (m.sc s).left from congrArg Account.left (accounts s home)]
      exact timed.left s
  · rw [created] at new
    rw [unborn s new]
    exact timed.unborn s new
  · by_cases same : c' = c
    · subst same
      exact clocked
    · have before := timed.clocked c'
      have rest : (m'.sc (m.cpu c').sc).left = (m.sc (m.cpu c').sc).left := congrArg Account.left (accounts _ (away c' same))
      refine ⟨?_, ?_, ?_, ?_⟩
      · rw [others c' same, last c' same, rest]
        exact before.deadline
      · rw [others c' same, last c' same]
        exact before.pending
      · rw [others c' same]
        exact before.disarmed
      · rw [stamp c' same, now]
        exact before.stamp
  · by_cases same : c' = c
    · subst same
      rw [now]
      exact sum
    · have used : m'.usedOn cfg c' = m.usedOn cfg c' := by
        unfold usedOn
        rw [created]
        refine Finset.sum_congr rfl fun s member => congrArg Account.used (accounts s ?_)
        rw [(Finset.mem_filter.mp member).2]
        exact same
      rw [used, now, stamp c' same]
      exact timed.sum c'

/-- The current SC is charged, and the CPU enters the loop. -/
theorem charge (timed : Timed cfg m) (sited : Sited cfg m.shelves) (outside : (m.cpu c).pc.inLoop = false)
    (scs : ∀ s, s ≠ (m.cpu c).sc → m'.sc s = m.sc s) (now : m'.now = m.now) (created : m'.created = m.created)
    (others : ∀ c', c' ≠ c → m'.cpu c' = m.cpu c')
    (used : (m'.sc (m.cpu c).sc).used = (m.sc (m.cpu c).sc).used + (m.now - (m.sc (m.cpu c).sc).last))
    (left : (m'.sc (m.cpu c).sc).left ≤ cfg.budget (m.cpu c).sc) (pc : (m'.cpu c).pc = .loop m.now)
    (disarmed : (m'.cpu c).armed = false) : Timed cfg m' := by
  have owner : cfg.scCpu (m.cpu c).sc = c := sited.owner c
  have born : (m.cpu c).sc ∈ m.created := sited.current_created c
  have stamp : m'.stamp c = m.now := by
    unfold Machine.stamp
    rw [pc]
  refine timed.update (c := c) sited (fun s away => ?_) now created others (fun s home => ?_) (fun s new => ?_)
    ⟨fun outside => ?_, fun t is => ?_, fun _ => disarmed, ?_⟩ ?_
  · rw [scs s fun is => away (by rw [is]; exact owner)]
  · by_cases same : s = (m.cpu c).sc
    · rw [same]
      exact left
    · rw [scs s same]
      exact timed.left s
  · rw [scs s fun is => new (by rw [is]; exact born)]
  · rw [pc] at outside
    cases outside
  · rw [pc] at is
    cases is
  · rw [stamp, now]
  · have member : (m.cpu c).sc ∈ m.created.toFinset.filter (cfg.scCpu · = c) := by simp [born, owner]
    have rest : ∑ s ∈ (m.created.toFinset.filter (cfg.scCpu · = c)).erase (m.cpu c).sc, (m'.sc s).used =
        ∑ s ∈ (m.created.toFinset.filter (cfg.scCpu · = c)).erase (m.cpu c).sc, (m.sc s).used :=
      Finset.sum_congr rfl fun s inside => by rw [scs s (Finset.ne_of_mem_erase inside)]
    have sum := timed.sum c
    have le := (timed.clocked c).stamp
    rw [stamp_of_notLoop outside] at sum le
    unfold usedOn at sum ⊢
    rw [created, stamp, ← Finset.add_sum_erase _ _ member, rest, used]
    rw [← Finset.add_sum_erase _ _ member] at sum
    omega

/-- `Ready::enqueue` of an SC that is current nowhere -/
theorem putReady (timed : Timed cfg m) {s : Nat} (free : ∀ c, (m.cpu c).sc ≠ s) (t : Nat) :
    Timed cfg (m.putReady cfg c s t) := by
  have left := timed.left s
  unfold Machine.putReady
  refine Timed.setSc ?_ (fun c' => ?_) ?_ ?_
  · refine timed.frame (fun _ => rfl) rfl rfl (fun c' => by rw [field_setCpu Cpu.bill (by rfl)]) fun c' => Or.inl ?_
    rw [field_setCpu Cpu.pc (by rfl), field_setCpu Cpu.armed (by rfl)]
    exact ⟨rfl, rfl⟩
  · rw [field_setCpu Cpu.sc (by rfl)]
    exact free c'
  · rfl
  · show (if (m.sc s).left = 0 then cfg.budget s else (m.sc s).left) ≤ _
    split
    · exact Nat.le_refl _
    · exact left

theorem put (timed : Timed cfg m) {s : Nat} (free : cfg.scCpu s = c → ∀ c', (m.cpu c').sc ≠ s) :
    Timed cfg (m.put cfg c s) := by
  unfold Machine.put
  split
  · rename_i home
    exact timed.putReady (free home) _
  · refine timed.frame (fun x => ?_) rfl rfl (fun c' => ?_) fun c' => Or.inl ⟨?_, ?_⟩
    · rw [putRelease, field_setSc Sc.account (by rfl), setCpu_sc]
    · rw [putRelease, setSc_cpu, field_setCpu Cpu.bill (by rfl)]
    · rw [putRelease, setSc_cpu, field_setCpu Cpu.pc (by rfl)]
    · rw [putRelease, setSc_cpu, field_setCpu Cpu.armed (by rfl)]

end Timed

/-- Another CPU runs no SC of this CPU. -/
theorem free_of (sited : Sited cfg m.shelves) {s : Nat} (home : cfg.scCpu s = c) (ne : (m.cpu c).sc ≠ s) (c' : Fin k) :
    (m.cpu c').sc ≠ s := by
  intro same
  have owner := sited.owner c'
  rw [show m.shelves.sc c' = s from same, home] at owner
  subst owner
  exact ne same

theorem Timed.jump (timed : Timed cfg m) {p : Pc n} (jump : Jump cfg m c (m.cpu c).pc p) : Timed cfg (m.goto c p) := by
  refine timed.place (c := c) (fun _ => rfl) rfl rfl (fun c' => by rw [goto, field_setCpu Cpu.bill (by rfl)])
    (fun c' ne => by simp [ne]) ?_ ?_
  · rw [goto_pc, if_pos rfl]
    generalize (m.cpu c).pc = q at jump
    have backs : ∀ back : Back n, back.pc.inLoop = false := by
      intro back
      cases back <;> rfl
    cases jump with
    | pass f free => cases f <;> exact ⟨rfl, rfl⟩
    | woken e back empty => exact ⟨rfl, backs back⟩
    | requeued t back empty => exact ⟨rfl, backs back⟩
    | rrq enabled => exact ⟨inLoop_of_settled (settled_of_resume enabled), rfl⟩
    | resume enabled => exact ⟨inLoop_of_settled (settled_of_resume enabled), backs _⟩
    | _ => exact ⟨rfl, rfl⟩
  · rw [goto_pc, if_pos rfl]
    generalize (m.cpu c).pc = q at jump
    cases jump with
    | pass f free => cases f <;> rintro _ ⟨⟩
    | woken e back empty => cases back <;> rintro _ ⟨⟩
    | requeued t back empty => cases back <;> rintro _ ⟨⟩
    | @resume _ _ back enabled => cases back <;> rintro _ ⟨⟩
    | _ => rintro _ ⟨⟩

/-- Steps that change neither SCs nor the SC of a CPU -/
theorem Timed.quiet (timed : Timed cfg m) (sc : m'.sc = m.sc) (now : m'.now = m.now) (created : m'.created = m.created)
    (bills : ∀ c', (m'.cpu c').bill = (m.cpu c').bill)
    (others : ∀ c', c' ≠ c → (m'.cpu c').pc = (m.cpu c').pc ∧ (m'.cpu c').armed = (m.cpu c').armed)
    (outside : (m.cpu c).pc.inLoop = false ∧ (m'.cpu c).pc.inLoop = false) (pending : (m'.cpu c).pc.pending = none) :
    Timed cfg m' :=
  timed.place (fun s => by rw [sc]) now created bills others outside fun t is => by rw [pending] at is; cases is

theorem goto_bill (x : Machine n k) (p : Pc n) (c' : Fin k) : ((x.goto c p).cpu c').bill = (x.cpu c').bill :=
  field_setCpu Cpu.bill rfl c'

theorem timed_move (sited : Sited cfg m.shelves) (timed : Timed cfg m)
    (move : Move cfg m c m') : Timed cfg m' := by
  have back_place : ∀ back : Back n, back.pc.inLoop = false ∧ back.pc.pending = none := by
    intro back
    cases back <;> exact ⟨rfl, rfl⟩
  cases move with
  | stay => exact timed
  | tick d =>
      have stamp : ∀ c', ({ m with now := m.now + d } : Machine n k).stamp c' = m.stamp c' := fun _ => rfl
      refine ⟨timed.left, timed.unborn, fun c' => ?_, fun c' => ?_⟩
      · have clocked := timed.clocked c'
        refine ⟨clocked.deadline, clocked.pending, clocked.disarmed, ?_⟩
        rw [stamp]
        exact Nat.le_add_right_of_le clocked.stamp
      · have sum := timed.sum c'
        have le := (timed.clocked c').stamp
        rw [stamp]
        show m.usedOn cfg c' + (m.now + d - m.stamp c') = m.now + d
        omega
  | jump jump => exact timed.jump jump
  | preempt pc =>
      exact timed.quiet (c := c) rfl rfl rfl (goto_bill _ _) (fun c' ne => by simp [Machine.preempt, ne])
        (by simp [Machine.preempt, pc, Pc.inLoop]) (by simp [Machine.preempt, Pc.pending])
  | help pc isLocal home busy alive =>
      exact timed.quiet (c := c) rfl rfl rfl (goto_bill _ _) (fun c' ne => by simp [ne]) (by simp [pc, Pc.inLoop])
        (by simp [Pc.pending])
  | @rendezvous i t pc isLocal home free =>
      exact timed.quiet (c := c) rfl rfl rfl (fun c' => by rw [field_setCpu Cpu.bill (by rfl)]; rfl) (fun c' ne => by simp [ne])
        (by simp [pc, Pc.inLoop]) (by simp [Pc.pending])
  | @enter e f a d g pc reached cont runs =>
      exact timed.quiet (c := c) rfl rfl rfl (fun c' => by rw [field_setCpu Cpu.bill (by rfl)]) (fun c' ne => by simp [ne])
        (by simp [pc, Pc.inLoop]) (by simp [Pc.pending])
  | @look e f a d pc reached blocked =>
      refine timed.place (c := c) (fun _ => rfl) rfl rfl (fun c' => by rw [field_setCpu Cpu.bill (by rfl)])
        (fun c' ne => by simp [ne]) (by simp [pc, Pc.inLoop]) fun t is => ?_
      rw [pc]
      simp only [setCpu_cpu, if_true] at is
      cases a with
      | schedule => cases is
      | loop t' => exact is
  | @unblocked e a i g pc cont runs =>
      exact timed.quiet (c := c) rfl rfl rfl (fun c' => by rw [field_setCpu Cpu.bill (by rfl)]) (fun c' ne => by simp [ne])
        (by simp [pc, Pc.inLoop]) (by simp [Pc.pending])
  | @wait e a i pc blocked =>
      have accounts : ∀ s, (((m.putQueue e (m.cpu c).sc).after c a).sc s).account = (m.sc s).account := by
        intro s
        have same : ((m.putQueue e (m.cpu c).sc).after c a).sc = (m.putQueue e (m.cpu c).sc).sc := by cases a <;> rfl
        rw [same, putQueue, field_setSc Sc.account (by rfl), setEc_sc]
      cases a with
      | schedule =>
          exact timed.place (c := c) accounts rfl rfl (goto_bill _ _) (fun c' ne => by simp [after, ne])
            (by simp [pc, Pc.inLoop, After.pc]) (by simp [Pc.pending, After.pc])
      | loop t =>
          have clocked := timed.clocked c
          have last := clocked.pending t (by rw [pc]; rfl)
          have le := clocked.stamp
          have sum := timed.sum c
          rw [stamp_of_notLoop (by rw [pc]; rfl), last] at le sum
          have stamp : ((m.putQueue e (m.cpu c).sc).after c (.loop t)).stamp c = t := by
            unfold Machine.stamp
            rw [after_pc, if_pos rfl]
            rfl
          refine timed.update (c := c) sited (fun s _ => accounts s) rfl rfl (fun c' ne => by simp [after, ne]) (fun s _ => ?_)
            (fun s _ => congrArg Account.used (accounts s)) ⟨?_, ?_, ?_, ?_⟩ ?_
          · have left : (((m.putQueue e (m.cpu c).sc).after c (.loop t)).sc s).left = (m.sc s).left :=
              congrArg Account.left (accounts s)
            rw [left]
            exact timed.left s
          · simp [After.pc, Pc.inLoop]
          · simp [After.pc, Pc.pending]
          · simp [after]
          · rw [stamp]
            exact le
          · rw [stamp, usedOn_congr (by rfl) fun s _ => congrArg Account.used (accounts s)]
            exact sum
  | @retire f pc caller =>
      have either : (m.cpu c).pc = .user ∨ (m.cpu c).pc = .kill := pc.imp And.left And.left
      exact timed.quiet (c := c) rfl rfl rfl (goto_bill _ _) (fun c' ne => by simp [ne])
        (by rcases either with pc | pc <;> simp [pc, Pc.inLoop]) (by simp [Pc.pending])
  | @donated a f g replies caller callee some =>
      refine timed.quiet (c := c) rfl rfl rfl (fun c' => ?_) (fun c' ne => by simp [unlinked, ne])
        (by rcases replies.pc with pc | pc <;> simp [pc, Pc.inLoop]) (by simp [Pc.pending])
      rw [field_setCpu Cpu.bill (by rfl), unlinked, field_setCpu Cpu.bill (by rfl)]
      rfl
  | @helped a f h replies caller callee none =>
      refine timed.quiet (c := c) rfl rfl rfl (fun c' => ?_) (fun c' ne => by simp [unlinked, ne])
        (by rcases replies.pc with pc | pc <;> simp [pc, Pc.inLoop]) (by simp [Pc.pending])
      rw [goto_bill, unlinked, field_setCpu Cpu.bill (by rfl)]
      rfl
  | @finish i pc token =>
      exact timed.quiet (c := c) rfl rfl rfl (goto_bill _ _) (fun c' ne => by simp [ne]) (by simp [pc, Pc.inLoop])
        (by simp [Pc.pending])
  | @cancel s pc =>
      exact timed.quiet (c := c) rfl rfl rfl (goto_bill _ _) (fun c' ne => by simp [ne]) (by simp [pc, Pc.inLoop])
        (by simp [Pc.pending])
  | block pc =>
      refine timed.charge sited (by rw [pc]; rfl) (fun x ne => ?_) rfl rfl (fun c' ne => by simp [Machine.charge, ne]) ?_ ?_ ?_ ?_
      · simp [Machine.charge, ne]
      · simp [Machine.charge]
      · have clocked := (timed.clocked c).deadline (by rw [pc]; rfl)
        have left := timed.left (m.cpu c).sc
        simp only [goto_sc, Machine.charge, setCpu_sc, setSc_sc, if_true]
        have le := (timed.clocked c).stamp
        rw [stamp_of_notLoop (by rw [pc]; rfl)] at le
        omega
      · simp
      · simp [Machine.charge]
  | yield_ pc free home =>
      refine timed.charge sited (by rw [pc]; rfl) (fun x ne => ?_) rfl rfl
        (fun c' ne => by simp [Machine.charge, Machine.putReady, ne]) ?_ ?_ ?_ ?_
      · simp [Machine.charge, Machine.putReady, ne]
      · simp [Machine.charge, Machine.putReady]
      · have clocked := (timed.clocked c).deadline (by rw [pc]; rfl)
        have left := timed.left (m.cpu c).sc
        simp only [goto_sc, Machine.putReady, Machine.charge, setCpu_sc, setSc_sc, if_true]
        have le := (timed.clocked c).stamp
        rw [stamp_of_notLoop (by rw [pc]; rfl)] at le
        split
        · exact Nat.le_refl _
        · omega
      · simp
      · simp [Machine.charge, Machine.putReady]
  | @dispatch t s rest pc head armed home =>
      have stamp : m.stamp c = t := by
        unfold Machine.stamp
        rw [pc]
      have le := (timed.clocked c).stamp
      have sum := timed.sum c
      rw [stamp] at le sum
      have used : ∀ x, ((m.pick cfg c t s rest).sc x).used = (m.sc x).used := by
        intro x
        rw [Machine.pick, setCpu_sc, field_setSc Sc.used (by rfl)]
      have left : ∀ x, ((m.pick cfg c t s rest).sc x).left = (m.sc x).left := by
        intro x
        rw [Machine.pick, setCpu_sc, field_setSc Sc.left (by rfl)]
      have picked : (m.pick cfg c t s rest).stamp c = t := by
        rw [stamp_of_notLoop (by simp [Pc.inLoop])]
        simp [Machine.pick]
      refine timed.update (c := c) sited (fun x away => ?_) rfl rfl (fun c' ne => by simp [Machine.pick, ne]) (fun x _ => ?_)
        (fun x _ => used x) ⟨?_, ?_, ?_, ?_⟩ ?_
      · have ne : x ≠ s := by
          rintro rfl
          exact away home
        simp [Machine.pick, ne]
      · rw [left]
        exact timed.left x
      · simp [Machine.pick]
      · simp [Machine.pick, Pc.pending]
      · simp [Pc.inLoop]
      · rw [picked]
        exact le
      · rw [picked, usedOn_congr (by rfl) fun x _ => used x]
        exact sum
  | @wake e back s rest pc head =>
      have taken : Timed cfg (m.takeQueue e s rest) := by
        refine timed.frame (fun x => ?_) rfl rfl (fun _ => rfl) fun _ => Or.inl ⟨rfl, rfl⟩
        rw [takeQueue, field_setSc Sc.account (by rfl), setEc_sc]
      refine taken.put fun home => free_of sited home ?_
      exact sited.queue_ne (by simp [shelves, pc, Pc.holds]) (e := e) (by simp [shelves, head])
  | @requeue t back s rest pc head home =>
      have taken : Timed cfg (m.takeRelease c s rest) := by
        refine timed.frame (fun x => ?_) rfl rfl (fun c' => ?_) fun c' => Or.inl ⟨?_, ?_⟩
        · rw [takeRelease, field_setSc Sc.account (by rfl), setCpu_sc]
        · rw [takeRelease, setSc_cpu, field_setCpu Cpu.bill (by rfl)]
        · rw [takeRelease, setSc_cpu, field_setCpu Cpu.pc (by rfl)]
        · rw [takeRelease, setSc_cpu, field_setCpu Cpu.armed (by rfl)]
      refine taken.putReady (fun c' => ?_) t
      rw [takeRelease, setSc_cpu, field_setCpu Cpu.sc (by rfl)]
      refine free_of sited home ?_ c'
      exact sited.release_ne (by simp [shelves, pc, Pc.holds]) (by simp [shelves, head])
  | @create s p creates new bound =>
      have place : p.inLoop = false ∧ p.pending = none ∧ (m.cpu c).pc.inLoop = false := by
        cases creates with
        | hypercall pc => exact ⟨rfl, rfl, by rw [pc]; rfl⟩
        | root pc => exact ⟨rfl, rfl, by rw [pc]; rfl⟩
      have made : Timed cfg { m with created := s :: m.created } := by
        have stamp : ∀ c', ({ m with created := s :: m.created } : Machine n k).stamp c' = m.stamp c' := fun _ => rfl
        refine ⟨timed.left, fun x absent => timed.unborn x ?_, fun c' => ?_, fun c' => ?_⟩
        · exact fun member => absent (List.mem_cons_of_mem s member)
        · have clocked := timed.clocked c'
          exact ⟨clocked.deadline, clocked.pending, clocked.disarmed, clocked.stamp⟩
        · rw [stamp]
          refine Eq.trans (congrArg (· + (m.now - m.stamp c')) ?_) (timed.sum c')
          show ∑ x ∈ (s :: m.created).toFinset with cfg.scCpu x = c', (m.sc x).used = _
          rw [List.toFinset_cons, Finset.filter_insert]
          split
          · rw [Finset.sum_insert (by simp [new]), timed.unborn s new, Nat.zero_add]
            rfl
          · rfl
      have free : (m.cpu c).sc ≠ s := by
        intro same
        refine new ?_
        rw [← same]
        exact sited.current_created c
      have put := made.put (c := c) (s := s) fun home => free_of sited home free
      refine put.place (c := c) (fun _ => rfl) rfl rfl (goto_bill _ _) (fun c' ne => by simp [ne]) ?_ ?_
      · rw [goto_pc, if_pos rfl, pc_put]
        exact ⟨place.2.2, place.1⟩
      · rw [goto_pc, if_pos rfl, place.2.1]
        rintro _ ⟨⟩
  | @take i zero pc positive =>
      exact timed.quiet (c := c) rfl rfl rfl (goto_bill _ _) (fun c' ne => by simp [ne]) (by simp [pc, Pc.inLoop])
        (by simp [Pc.pending])
  | @suspend i timed' pc utcb zero =>
      exact timed.quiet (c := c) rfl rfl rfl (goto_bill _ _) (fun c' ne => by simp [ne]) (by simp [pc, Pc.inLoop])
        (by simp [Pc.pending])
  | @sleep i timed' episode pc blocked free =>
      refine timed.place (c := c) (fun s => ?_) rfl rfl (goto_bill _ _) (fun c' ne => by simp [ne]) (by simp [pc, Pc.inLoop])
        (by simp [Pc.pending])
      rw [goto_sc, setEc_sc, putQueue, field_setSc Sc.account (by rfl), setEc_sc]
  | @count i back raises empty below =>
      exact timed.quiet (c := c) rfl rfl rfl (goto_bill _ _) (fun c' ne => by simp [ne])
        ⟨inLoop_of_settled raises.settled, by simp [back_place]⟩ (by simp [back_place])
  | @release i back e rest raises head =>
      exact timed.quiet (c := c) rfl rfl rfl (goto_bill _ _) (fun c' ne => by simp [ne])
        ⟨inLoop_of_settled raises.settled, by simp [Pc.inLoop]⟩ (by simp [Pc.pending])
  | @stale x back e i enabled set home awake =>
      exact timed.quiet (c := c) rfl rfl rfl (goto_bill _ _) (fun c' ne => by simp [ne])
        ⟨inLoop_of_settled (settled_of_resume enabled), by simp [back_place]⟩ (by simp [back_place])
  | @timeout x back e i enabled set home blocked member =>
      exact timed.quiet (c := c) rfl rfl rfl (goto_bill _ _) (fun c' ne => by simp [ne])
        ⟨inLoop_of_settled (settled_of_resume enabled), by simp [Pc.inLoop]⟩ (by simp [Pc.pending])
  | @sched x back armed enabled kept =>
      exact timed.quiet (c := c) rfl rfl rfl (fun c' => by rw [field_setCpu Cpu.bill (by rfl)]) (fun c' ne => by simp [ne])
        ⟨inLoop_of_settled (settled_of_resume enabled), by simp [back_place]⟩ (by simp [back_place])

theorem timed_init (cfg : Config n k) (root : Option (Fin n)) (vm : Msg) (count : Nat → Nat) :
    Timed cfg (init cfg root vm count) := by
  refine ⟨fun _ => Nat.zero_le _, fun _ _ => rfl, fun c => ⟨fun _ => rfl, nofun, nofun, Nat.le_refl 0⟩, fun c => ?_⟩
  show ∑ s ∈ (init cfg root vm count).created.toFinset with cfg.scCpu s = c, 0 + (0 - 0) = 0
  simp

end Machine

end Nova.Kernel.Contexts
