/-
# Nova.Kernel.Fairness — how long a ready SC waits

`Desk` is the part of a machine that decides who runs and for how long: the ready
queues, the time accounts and the current SCs.  Every step does one of five things to
it (`Turn`).

An SC whose budget is used up goes to the tail of the queue of its priority, all others
to the head.  So while `s` waits, another SC of its priority runs at most for what it
has left: then it is behind `s` (`Share`), and stays there.  `response_time` adds this
up over all SCs of the CPU.
-/
import Mathlib.Algebra.Order.BigOperators.Group.Finset
import Nova.Kernel.Scheduling

namespace Nova.Kernel.Contexts

open scoped BigOperators

set_option autoImplicit false

variable {n k : Nat}

/-- The ready queues, the accounts and the current SCs -/
structure Desk (k : Nat) where
  ready : Fin k → Nat → List Nat
  account : Nat → Account
  sc : Fin k → Nat

namespace Desk

/-- `Ready::enqueue` -/
def put (cfg : Config n k) (c : Fin k) (s t : Nat) (d : Desk k) : Desk k :=
  { d with
    ready := Function.update d.ready c (Function.update (d.ready c) (cfg.prio s)
      (if (d.account s).left ≠ 0 then s :: d.ready c (cfg.prio s) else d.ready c (cfg.prio s) ++ [s]))
    account := Function.update d.account s { d.account s with
      left := if (d.account s).left = 0 then cfg.budget s else (d.account s).left
      last := t } }

/-- What `schedule` charges the current SC -/
def charge (c : Fin k) (deadline now : Nat) (d : Desk k) : Desk k :=
  { d with account := Function.update d.account (d.sc c) { d.account (d.sc c) with
      used := (d.account (d.sc c)).used + (now - (d.account (d.sc c)).last)
      left := deadline - now } }

/-- `Ready::dequeue` -/
def pick (c : Fin k) (p t s : Nat) (rest : List Nat) (d : Desk k) : Desk k where
  ready := Function.update d.ready c (Function.update (d.ready c) p rest)
  account := Function.update d.account s { d.account s with last := t }
  sc := Function.update d.sc c s

variable {cfg : Config n k}

theorem put_ready (d : Desk k) (c c' : Fin k) (s t p : Nat) : (d.put cfg c s t).ready c' p =
    if c' = c ∧ p = cfg.prio s then (if (d.account s).left ≠ 0 then s :: d.ready c' p else d.ready c' p ++ [s])
    else d.ready c' p := by
  by_cases cpu : c' = c
  · subst cpu
    by_cases prio : p = cfg.prio s
    · subst prio
      simp [put]
    · simp [put, prio]
  · simp [put, cpu]

theorem pick_ready (d : Desk k) (c c' : Fin k) (p t s q : Nat) (rest : List Nat) : (d.pick c p t s rest).ready c' q =
    if c' = c ∧ q = p then rest else d.ready c' q := by
  by_cases cpu : c' = c
  · subst cpu
    by_cases prio : q = p
    · subst prio
      simp [pick]
    · simp [pick, prio]
  · simp [pick, cpu]

end Desk

namespace Machine

def desk (m : Machine n k) : Desk k where
  ready c := (m.cpu c).ready
  account s := (m.sc s).account
  sc c := (m.cpu c).sc

variable {cfg : Config n k} {m m' : Machine n k} {c : Fin k} {count : Nat → Nat}

theorem desk_congr (sc : ∀ s, (m'.sc s).account = (m.sc s).account)
    (cpu : ∀ c, (m'.cpu c).ready = (m.cpu c).ready ∧ (m'.cpu c).sc = (m.cpu c).sc) : m'.desk = m.desk := by
  unfold desk
  simp only [sc, fun c => (cpu c).1, fun c => (cpu c).2]

theorem desk_setCpu {f : Cpu n → Cpu n} (same : (f (m.cpu c)).ready = (m.cpu c).ready ∧ (f (m.cpu c)).sc = (m.cpu c).sc) :
    (m.setCpu c f).desk = m.desk :=
  desk_congr (fun _ => rfl) fun c' => ⟨field_setCpu Cpu.ready same.1 c', field_setCpu Cpu.sc same.2 c'⟩

theorem desk_goto (m : Machine n k) (c : Fin k) (p : Pc n) : (m.goto c p).desk = m.desk := desk_setCpu ⟨rfl, rfl⟩

theorem desk_setSc {s : Nat} {f : Sc → Sc} (same : (f (m.sc s)).account = (m.sc s).account) : (m.setSc s f).desk = m.desk :=
  desk_congr (field_setSc Sc.account same) fun _ => ⟨rfl, rfl⟩

theorem desk_putReady (m : Machine n k) (c : Fin k) (s t : Nat) : (m.putReady cfg c s t).desk = m.desk.put cfg c s t := by
  simp only [desk, putReady, setSc, setCpu, comp_update, Desk.put]
  congr 1
  exact Function.update_eq_self c fun c => (m.cpu c).sc

theorem desk_putRelease (m : Machine n k) (s : Nat) : (m.putRelease cfg s).desk = m.desk := by
  unfold putRelease
  rw [desk_setSc rfl, desk_setCpu ⟨rfl, rfl⟩]

theorem desk_charge (m : Machine n k) (c : Fin k) : (m.charge c).desk = m.desk.charge c (m.cpu c).deadline m.now := by
  simp only [desk, charge, setSc, setCpu, comp_update, Desk.charge]
  congr 1
  · exact Function.update_eq_self c fun c => (m.cpu c).ready
  · exact Function.update_eq_self c fun c => (m.cpu c).sc

theorem desk_pick (m : Machine n k) (c : Fin k) (t s : Nat) (rest : List Nat) :
    (m.pick cfg c t s rest).desk = m.desk.pick c (m.cpu c).prioTop t s rest := by
  simp only [desk, pick, setSc, setCpu, comp_update, Desk.pick]
  rfl

/-- What a step of CPU `c` does to the desk -/
inductive Turn (cfg : Config n k) (m : Machine n k) (c : Fin k) : Desk k → Prop
  | stay : Turn cfg m c m.desk
  | put (s t : Nat) (home : cfg.scCpu s = c) : Turn cfg m c (m.desk.put cfg c s t)
  | block (pc : (m.cpu c).pc = .schedule true) : Turn cfg m c (m.desk.charge c (m.cpu c).deadline m.now)
  | yield_ (pc : (m.cpu c).pc = .schedule false) (home : cfg.scCpu (m.cpu c).sc = c) :
      Turn cfg m c ((m.desk.charge c (m.cpu c).deadline m.now).put cfg c (m.cpu c).sc m.now)
  | dispatch (t s : Nat) (rest : List Nat) (head : (m.cpu c).ready (m.cpu c).prioTop = s :: rest) :
      Turn cfg m c (m.desk.pick c (m.cpu c).prioTop t s rest)

theorem turn_put (m₁ : Machine n k) (same : m₁.desk = m.desk) (s : Nat) : Turn cfg m c (m₁.put cfg c s).desk := by
  unfold put
  split
  · rename_i home
    rw [desk_putReady, same]
    exact .put s m₁.now home
  · rw [desk_putRelease, same]
    exact .stay

theorem turn_move (move : Move cfg m c m') : Turn cfg m c m'.desk := by
  have stay : m'.desk = m.desk → Turn cfg m c m'.desk := fun same => same ▸ .stay
  cases move with
  | wake pc head =>
      refine turn_put _ ?_ _
      unfold takeQueue
      rw [desk_setSc rfl]
      rfl
  | @requeue t back s rest pc head home =>
      rw [desk_putReady]
      have same : (m.takeRelease c s rest).desk = m.desk := by
        unfold takeRelease
        rw [desk_setSc rfl, desk_setCpu ⟨rfl, rfl⟩]
      rw [same]
      exact .put _ _ home
  | @create s p creates new bound =>
      have same : ({ m with created := s :: m.created } : Machine n k).desk = m.desk := rfl
      rw [desk_goto]
      exact turn_put _ same s
  | block pc =>
      rw [desk_goto, desk_charge]
      exact .block pc
  | yield_ pc free home =>
      rw [desk_goto, desk_putReady, desk_charge]
      exact .yield_ pc home
  | @dispatch t s rest pc head armed home =>
      rw [desk_pick]
      exact .dispatch t s rest head
  | stay => exact .stay
  | tick d => exact .stay
  | jump jump => exact stay (desk_goto m c _)
  | preempt pc => exact stay (desk_goto _ c _)
  | help pc isLocal home busy alive => exact stay (desk_goto _ c _)
  | rendezvous pc isLocal home free => exact stay (desk_setCpu ⟨rfl, rfl⟩)
  | enter pc reached cont runs => exact stay (desk_setCpu ⟨rfl, rfl⟩)
  | look pc reached blocked => exact stay (desk_setCpu ⟨rfl, rfl⟩)
  | unblocked pc cont runs => exact stay (desk_setCpu ⟨rfl, rfl⟩)
  | @wait e a i pc blocked =>
      have queue : (m.putQueue e (m.cpu c).sc).desk = m.desk := by
        unfold putQueue
        rw [desk_setSc rfl]
        rfl
      cases a with
      | schedule => exact stay ((desk_goto _ c _).trans queue)
      | loop t =>
          refine stay (Eq.trans ?_ queue)
          unfold after
          exact desk_setCpu ⟨rfl, rfl⟩
  | retire pc caller => exact stay (desk_goto _ c _)
  | donated replies caller callee some => exact stay ((desk_setCpu ⟨rfl, rfl⟩).trans (desk_setCpu ⟨rfl, rfl⟩))
  | helped replies caller callee none => exact stay ((desk_goto _ c _).trans (desk_setCpu ⟨rfl, rfl⟩))
  | finish pc token => exact stay (desk_goto _ c _)
  | cancel pc => exact stay (desk_goto _ c _)
  | take pc positive => exact stay (desk_goto _ c _)
  | suspend pc utcb zero => exact stay (desk_goto _ c _)
  | @sleep i timed episode pc blocked free =>
      have queue : (m.putQueue (m.self c) (m.cpu c).sc).desk = m.desk := by
        unfold putQueue
        rw [desk_setSc rfl]
        rfl
      exact stay ((desk_goto _ c _).trans queue)
  | count raises empty below => exact stay (desk_goto _ c _)
  | release raises head => exact stay (desk_goto _ c _)
  | stale enabled set home awake => exact stay (desk_goto _ c _)
  | timeout enabled set home blocked member => exact stay (desk_goto _ c _)
  | sched enabled kept => exact stay (desk_setCpu ⟨rfl, rfl⟩)

/-! ## The current SC is in no ready queue -/

/-- An SC that has blocked is not in a ready queue before it is charged. -/
def Parked (m : Machine n k) : Prop := ∀ c, (m.cpu c).pc = .schedule true → ∀ p, (m.cpu c).sc ∉ (m.cpu c).ready p

theorem back_not_blocked (back : Back n) : back.pc ≠ .schedule true := by cases back <;> nofun

theorem Jump.not_blocked {p q : Pc n} (jump : Jump cfg m c p q) : q ≠ .schedule true := by
  cases jump with
  | pass f free => cases f <;> nofun
  | woken e back empty => exact back_not_blocked back
  | requeued t back empty => exact back_not_blocked back
  | resume enabled => exact back_not_blocked _
  | _ => nofun

/-- How a CPU comes to block its SC: the SC was running. -/
theorem parks (move : Move cfg m c m') (pc : (m'.cpu c).pc = .schedule true) :
    ((m.cpu c).pc = .schedule true ∨ (m.cpu c).pc.holds = true) ∧ (m'.cpu c).ready = (m.cpu c).ready ∧
      (m'.cpu c).sc = (m.cpu c).sc := by
  cases move with
  | stay => exact ⟨Or.inl pc, rfl, rfl⟩
  | tick d => exact ⟨Or.inl pc, rfl, rfl⟩
  | jump jump =>
      rw [goto_pc, if_pos rfl] at pc
      exact absurd pc jump.not_blocked
  | @wait e a i here blocked =>
      cases a with
      | schedule => exact ⟨Or.inr (by rw [here]; rfl), by simp [after], by simp [after]⟩
      | loop t => simp [after] at pc
  | @retire f either caller =>
      refine ⟨Or.inr ?_, by simp [retire], by simp [retire]⟩
      rcases either with here | here <;> rw [here.1] <;> rfl
  | @sleep i timed episode here blocked free => exact ⟨Or.inr (by rw [here]; rfl), by simp, by simp⟩
  | @wake e back s rest here head =>
      rw [pc_put, takeQueue_cpu, here] at pc
      cases pc
  | requeue here head home =>
      rw [pc_putReady, takeRelease_pc, here] at pc
      cases pc
  | @create s p creates new bound =>
      rw [goto_pc, if_pos rfl] at pc
      cases creates <;> cases pc
  | _ => simp [Machine.preempt, unlinked, charge, putReady, pick, back_not_blocked] at pc

theorem parked_init (cfg : Config n k) (root : Option (Fin n)) (vm : Msg) (count : Nat → Nat) :
    (init cfg root vm count).Parked := by
  rintro c ⟨⟩

theorem running_not_ready (sited : Sited cfg m.shelves) (holds : (m.cpu c).pc.holds = true) (p : Nat) :
    (m.cpu c).sc ∉ (m.cpu c).ready p := by
  obtain ⟨loc, placed, -⟩ := sited
  intro member
  have ready : loc (m.cpu c).sc = .ready := (((placed.site _).ready c p).mp member).1
  have current : loc (m.cpu c).sc = .current := placed.current_loc (c := c) holds
  rw [current] at ready
  cases ready

theorem parked_move (sited : Sited cfg m.shelves) (parked : m.Parked) (move : Move cfg m c m') : m'.Parked := by
  intro c' pc p
  by_cases here : c' = c
  · subst here
    obtain ⟨before, ready, sc⟩ := parks move pc
    rw [ready, sc]
    rcases before with blocked | holds
    · exact parked c' blocked p
    · exact running_not_ready sited holds p
  · obtain ⟨q, same⟩ := move.elsewhere here
    rw [same] at pc ⊢
    exact parked c' pc p

/-- An SC that `schedule` charges is in no ready queue. -/
theorem charged_not_ready (sited : Sited cfg m.shelves) (parked : m.Parked) {b : Bool} (pc : (m.cpu c).pc = .schedule b) (p : Nat) :
    (m.cpu c).sc ∉ (m.cpu c).ready p := by
  cases b with
  | true => exact parked c pc p
  | false => exact running_not_ready sited (by rw [pc]; rfl) p

/-! ## What an SC of the same priority still gets -/

/-- `x` waits behind `s`, or has not used up its share. -/
def Share (cfg : Config n k) (s x bound : Nat) (d : Desk k) : Prop :=
  [s, x].Sublist (d.ready (cfg.scCpu s) (cfg.prio s)) ∧ (d.account x).used ≤ bound ∨
    (d.account x).used + (d.account x).left ≤ bound

/-- `s` is in the ready queue of its CPU and priority. -/
def ReadyAt (cfg : Config n k) (s : Nat) (d : Desk k) : Prop := s ∈ d.ready (cfg.scCpu s) (cfg.prio s)

/-- By how much the current SC is late when `schedule` charges it -/
def late (c : Fin k) (x : Nat) (m : Machine n k) : Nat :=
  match (m.cpu c).pc with
  | .schedule _ => if (m.cpu c).sc = x then m.now - (m.cpu c).deadline else 0
  | _ => 0

section Share

variable {s x bound : Nat} {d : Desk k}

theorem Share.mono (share : Share cfg s x bound d) (more : Nat) : Share cfg s x (bound + more) d := by
  rcases share with ⟨behind, used⟩ | rest
  · exact Or.inl ⟨behind, by omega⟩
  · exact Or.inr (by omega)

theorem Share.put (share : Share cfg s x bound d) (ready : ReadyAt cfg s d) (home : cfg.scCpu x = cfg.scCpu s)
    (prio : cfg.prio x = cfg.prio s) {y t : Nat} (owner : cfg.scCpu y = c) : Share cfg s x bound (d.put cfg c y t) := by
  have behind : [s, x].Sublist (d.ready (cfg.scCpu s) (cfg.prio s)) →
      [s, x].Sublist ((d.put cfg c y t).ready (cfg.scCpu s) (cfg.prio s)) := by
    intro before
    rw [Desk.put_ready]
    split
    · split
      · exact before.cons y
      · exact before.trans (List.sublist_append_left ..)
    · exact before
  by_cases same : x = y
  · subst same
    by_cases empty : (d.account x).left = 0
    · -- the share is used up: `x` goes behind `s`
      left
      have used : (d.account x).used ≤ bound := by rcases share with ⟨-, used⟩ | rest <;> omega
      refine ⟨?_, by simpa [Desk.put] using used⟩
      rw [Desk.put_ready, if_pos ⟨home.symm.trans owner, prio.symm⟩, if_neg (not_not.mpr empty)]
      exact (List.singleton_sublist.mpr ready).append (List.Sublist.refl [x])
    · rcases share with ⟨before, used⟩ | rest
      · exact Or.inl ⟨behind before, by simpa [Desk.put] using used⟩
      · exact Or.inr (by simpa [Desk.put, empty] using rest)
  · have account : (d.put cfg c y t).account x = d.account x := by simp [Desk.put, same]
    unfold Share
    rw [account]
    exact share.imp_left fun before => ⟨behind before.1, before.2⟩

theorem Share.charge (share : Share cfg s x bound d) {deadline now : Nat} (gone : d.sc c = x → x ∉ d.ready (cfg.scCpu s) (cfg.prio s))
    (clocked : d.sc c = x → deadline = (d.account x).last + (d.account x).left ∧ (d.account x).last ≤ now) :
    Share cfg s x (bound + if d.sc c = x then now - deadline else 0) (d.charge c deadline now) := by
  by_cases same : d.sc c = x
  · rw [if_pos same]
    obtain ⟨deadline, started⟩ := clocked same
    rcases share with ⟨before, -⟩ | rest
    · exact absurd (before.subset (by simp)) (gone same)
    · right
      simp only [Desk.charge, same, Function.update_self]
      omega
  · rw [if_neg same]
    have account : (d.charge c deadline now).account x = d.account x := by
      simp [Desk.charge, Ne.symm same]
    unfold Share
    rw [account]
    exact share

theorem Share.pick (share : Share cfg s x bound d) {p t y : Nat} {rest : List Nat} (head : d.ready c p = y :: rest)
    (nodup : (d.ready c p).Nodup) (ready : ReadyAt cfg s (d.pick c p t y rest)) : Share cfg s x bound (d.pick c p t y rest) := by
  have used : ((d.pick c p t y rest).account x).used = (d.account x).used := by
    by_cases same : x = y <;> simp [Desk.pick, same]
  have left : ((d.pick c p t y rest).account x).left = (d.account x).left := by
    by_cases same : x = y <;> simp [Desk.pick, same]
  unfold Share
  rw [used, left]
  refine share.imp_left fun before => ⟨?_, before.2⟩
  have after : (d.pick c p t y rest).ready (cfg.scCpu s) (cfg.prio s) =
      if cfg.scCpu s = c ∧ cfg.prio s = p then rest else d.ready (cfg.scCpu s) (cfg.prio s) := Desk.pick_ready ..
  rw [ReadyAt, after] at ready
  rw [after]
  split
  · rename_i here
    obtain ⟨rfl, rfl⟩ := here
    rw [if_pos ⟨rfl, rfl⟩] at ready
    rw [head] at before nodup
    have other : s ≠ y := by
      rintro rfl
      exact (List.nodup_cons.mp nodup).1 ready
    exact List.Sublist.of_cons_of_ne other before.1
  · exact before.1

/-- What a step of CPU `c` leaves of the share -/
theorem Turn.share (turn : Turn cfg m c d) (sited : Sited cfg m.shelves) (timed : Timed cfg m) (parked : m.Parked)
    (share : Share cfg s x bound m.desk) (home : cfg.scCpu x = cfg.scCpu s) (prio : cfg.prio x = cfg.prio s)
    (before : ReadyAt cfg s m.desk) (after : ReadyAt cfg s d) : Share cfg s x (bound + m.late c x) d := by
  have charged : ∀ b, (m.cpu c).pc = .schedule b →
      Share cfg s x (bound + m.late c x) (m.desk.charge c (m.cpu c).deadline m.now) := by
    intro b pc
    have clocked := timed.clocked c
    have started := clocked.stamp
    rw [stamp_of_notLoop (by rw [pc]; rfl)] at started
    have owed : m.late c x = if (m.cpu c).sc = x then m.now - (m.cpu c).deadline else 0 := by rw [late, pc]
    rw [owed]
    refine share.charge (fun same => ?_) fun same => ?_
    · have owner : cfg.scCpu (m.cpu c).sc = c := sited.owner c
      have here : cfg.scCpu s = c := by rw [← home, ← same]; exact owner
      rw [here, ← same]
      exact charged_not_ready sited parked pc _
    · rw [← same]
      exact ⟨clocked.deadline (by rw [pc]; rfl), started⟩
  cases turn with
  | stay => exact share.mono _
  | put y t owner => exact (share.put before home prio owner).mono _
  | block pc => exact charged true pc
  | yield_ pc owner =>
      refine (charged false pc).put ?_ home prio owner
      exact before
  | dispatch t y rest head => 
      obtain ⟨loc, placed, -⟩ := sited
      exact (share.pick head (placed.readyNodup c _) after).mono _

/-- Only the SC that `schedule` charges uses time. -/
theorem Turn.used (turn : Turn cfg m c d) (free : ∀ b, (m.cpu c).pc = .schedule b → (m.cpu c).sc ≠ x) :
    (d.account x).used = (m.sc x).used := by
  have charged : ∀ b, (m.cpu c).pc = .schedule b →
      ((m.desk.charge c (m.cpu c).deadline m.now).account x).used = (m.sc x).used := by
    intro b pc
    have other : x ≠ (m.cpu c).sc := Ne.symm (free b pc)
    simp [Desk.charge, other, desk, Sc.account]
  have put : ∀ (d : Desk k) y t, ((d.put cfg c y t).account x).used = (d.account x).used := by
    intro d y t
    by_cases same : x = y <;> simp [Desk.put, same]
  cases turn with
  | stay => rfl
  | put y t owner => exact put ..
  | block pc => exact charged true pc
  | yield_ pc owner => exact (put ..).trans (charged false pc)
  | dispatch t y rest head => by_cases same : x = y <;> simp [Desk.pick, same, desk, Sc.account]

end Share

/-! ## The SCs of lower priority -/

/-- The CPU runs no SC of a lower priority than `p`. -/
def Leads (cfg : Config n k) (p : Nat) (c : Fin k) (m : Machine n k) : Prop :=
  (m.cpu c).pc.inLoop = true ∨ p ≤ cfg.prio (m.cpu c).sc

instance (p : Nat) : Decidable (m.Leads cfg p c) := inferInstanceAs (Decidable (_ ∨ _))

/-- In the scheduler a CPU takes no interrupt and gets no other event. -/
theorem step_scheduling {event : Event n} (pc : (∃ b, (m.cpu c).pc = .schedule b) ∨ ∃ t, (m.cpu c).pc = .loop t)
    (other : event ≠ .go) : ∃ d, m.step cfg c event = .ok { m with now := m.now + d } := by
  rcases pc with ⟨b, pc⟩ | ⟨t, pc⟩ <;> cases event with
  | tick d => exact ⟨d, rfl⟩
  | go => exact absurd rfl other
  | hypercall h => exact ⟨0, by simp [step, hypercall, pc]⟩
  | irq i x => exact ⟨0, by simp [step, irq, pc, Pc.resume]⟩
  | _ => exact ⟨0, by simp [step, pc]⟩

/-- A ready queue that is not empty is not above `prio_top`. -/
theorem ready_le_top (ranked : Ranked cfg m) {p s : Nat} (member : s ∈ (m.cpu c).ready p) : p ≤ (m.cpu c).prioTop := by
  by_contra above
  rw [(ranked.topped c).above p (Nat.lt_of_not_le above)] at member
  cases member

theorem leads_step {p s : Nat} {event : Event n} (sound : Sound cfg count m) (member : s ∈ (m.cpu c).ready p)
    (leads : m.Leads cfg p c) (done : m.step cfg c event = .ok m') (move : Move cfg m c m') : m'.Leads cfg p c := by
  have below := ready_le_top sound.ranked member
  have top : ∀ y rest, (m.cpu c).ready (m.cpu c).prioTop = y :: rest → p ≤ cfg.prio y := by
    intro y rest head
    rw [sound.sited.ready_prio (c := c) (p := (m.cpu c).prioTop) (by show y ∈ (m.cpu c).ready _; rw [head]; exact List.mem_cons_self)]
    exact below
  rcases leads with inside | high
  · obtain ⟨t, pc⟩ : ∃ t, (m.cpu c).pc = .loop t := by
      cases pc : (m.cpu c).pc with
      | loop t => exact ⟨t, rfl⟩
      | _ => rw [pc] at inside; cases inside
    by_cases goes : event = .go
    · subst goes
      obtain ⟨m₁, y, rest, picked, head, -, rfl⟩ := sound.dequeue pc
      obtain rfl := Except.ok.inj (picked.symm.trans done)
      right
      simpa [pick] using top y rest head
    · obtain ⟨d, waited⟩ : ∃ d, m.step cfg c event = .ok { m with now := m.now + d } := step_scheduling (Or.inr ⟨t, pc⟩) goes
      obtain rfl := Except.ok.inj (waited.symm.trans done)
      exact Or.inl inside
  · right
    have turn := turn_move move
    generalize desk : m'.desk = d at turn
    have sc : (m'.cpu c).sc = d.sc c := by rw [← desk]; rfl
    rw [sc]
    cases turn with
    | dispatch t y rest head => simpa [Desk.pick] using top y rest head
    | _ => exact high

/-! ## Response time -/

/-- By how much the step is late for `x` -/
def lateness (c : Fin k) (event : Event n) (x : Nat) (m : Machine n k) : Nat :=
  match event with
  | .go => m.late c x
  | _ => 0

/-- By how much all steps of a run are late for `x` -/
def overrun (cfg : Config n k) (x : Nat) : List (Fin k × Event n) → Machine n k → Nat
  | [], _ => 0
  | e :: rest, m => m.lateness e.1 e.2 x + match m.step cfg e.1 e.2 with
      | .ok m' => overrun cfg x rest m'
      | .error _ => 0

/-- `s` is ready in every state of the run. -/
def StaysReady (cfg : Config n k) (s : Nat) : List (Fin k × Event n) → Machine n k → Prop
  | [], m => ReadyAt cfg s m.desk
  | e :: rest, m => ReadyAt cfg s m.desk ∧ ∀ m', m.step cfg e.1 e.2 = .ok m' → StaysReady cfg s rest m'

/-- While `s` waits since `m₀`: `x` got no more than its share and `extra`, and no SC of a lower priority runs. -/
structure Waited (cfg : Config n k) (s : Nat) (m₀ : Machine n k) (extra : Nat → Nat) (m : Machine n k) : Prop where
  parked : m.Parked
  leads : m.Leads cfg (cfg.prio s) (cfg.scCpu s)
  share : ∀ x, cfg.scCpu x = cfg.scCpu s → cfg.prio x = cfg.prio s →
    Share cfg s x ((m₀.sc x).used + (m₀.sc x).left + extra x) m.desk
  lower : ∀ x, cfg.scCpu x = cfg.scCpu s → cfg.prio x < cfg.prio s → (m.sc x).used = (m₀.sc x).used
  self : (m.sc s).used = (m₀.sc s).used

section Waited

variable {s : Nat} {m₀ : Machine n k} {extra : Nat → Nat} {event : Event n}

theorem waited_start (parked : m.Parked) (leads : m.Leads cfg (cfg.prio s) (cfg.scCpu s)) : Waited cfg s m (fun _ => 0) m where
  parked := parked
  leads := leads
  share := fun _ _ _ => Or.inr (Nat.le_refl _)
  lower := fun _ _ _ => rfl
  self := rfl

theorem waited_step (sound : Sound cfg count m) (waited : Waited cfg s m₀ extra m) (done : m.step cfg c event = .ok m')
    (move : Move cfg m c m') (before : ReadyAt cfg s m.desk) (after : ReadyAt cfg s m'.desk) :
    Waited cfg s m₀ (fun x => extra x + m.lateness c event x) m' where
  parked := parked_move sound.sited waited.parked move
  leads := by
    by_cases here : cfg.scCpu s = c
    · have leads := waited.leads
      rw [here] at leads ⊢
      refine leads_step sound (s := s) ?_ leads done move
      rw [← here]
      exact before
    · obtain ⟨q, same⟩ := move.elsewhere here
      unfold Leads
      rw [same]
      exact waited.leads
  share := by
    intro x home prio
    have share := waited.share x home prio
    have shared := (turn_move move).share sound.sited sound.timed waited.parked share home prio before after
    by_cases goes : event = .go
    · subst goes
      rw [← Nat.add_assoc]
      exact shared
    · by_cases schedules : ∃ b, (m.cpu c).pc = .schedule b
      · obtain ⟨d, waits⟩ : ∃ d, m.step cfg c event = .ok { m with now := m.now + d } := step_scheduling (Or.inl schedules) goes
        obtain rfl := Except.ok.inj (waits.symm.trans done)
        rw [← Nat.add_assoc]
        exact share.mono _
      · have onTime : m.late c x = 0 := by
          unfold late
          split
          · rename_i b pc
            exact absurd ⟨b, pc⟩ schedules
          · rfl
        rw [onTime, Nat.add_zero] at shared
        rw [← Nat.add_assoc]
        exact shared.mono _
  lower := by
    intro x home prio
    refine Eq.trans ((turn_move move).used fun b pc same => ?_) (waited.lower x home prio)
    have owner : cfg.scCpu (m.cpu c).sc = c := sound.sited.owner c
    rw [same, home] at owner
    have leads := waited.leads
    rw [owner] at leads
    rcases leads with inside | high
    · rw [pc] at inside
      cases inside
    · rw [same] at high
      omega
  self := by
    refine Eq.trans ((turn_move move).used fun b pc same => ?_) waited.self
    have owner : cfg.scCpu (m.cpu c).sc = c := sound.sited.owner c
    refine charged_not_ready sound.sited waited.parked pc (cfg.prio s) ?_
    rw [same] at owner ⊢
    rw [← owner]
    exact before

theorem waited_run (sound : Sound cfg count m) (waited : Waited cfg s m₀ extra m) {events : List (Fin k × Event n)}
    (waits : StaysReady cfg s events m) (run : m.exec cfg events = .ok m') :
    Sound cfg count m' ∧ Waited cfg s m₀ (fun x => extra x + overrun cfg x events m) m' := by
  induction events generalizing m extra with
  | nil =>
      obtain rfl := Except.ok.inj run
      exact ⟨sound, waited⟩
  | cons e rest ih =>
      obtain ⟨m₁, done, move, sound₁⟩ := step_sound sound e.1 e.2
      rw [exec, List.foldlM_cons, done] at run
      have later := waits.2 m₁ done
      have after : ReadyAt cfg s m₁.desk := by
        cases rest with
        | nil => exact later
        | cons e' rest => exact later.1
      obtain ⟨sound', waited'⟩ := ih sound₁ (waited_step sound waited done move waits.1 after) later run
      refine ⟨sound', ?_⟩
      simpa only [overrun, done, Nat.add_assoc] using waited'

end Waited

/-- The time that a CPU has charged is the time that its SCs used. -/
theorem Timed.used_eq_stamp (timed : Timed cfg m) (c : Fin k) : m.usedOn cfg c = m.stamp c := by
  have sum := timed.sum c
  have stamp := (timed.clocked c).stamp
  omega

/-- The share of an SC while `s` waits: none below its priority, what is left at its priority, and
what it takes above it -/
def gain (cfg : Config n k) (s : Nat) (m m' : Machine n k) (extra : Nat → Nat) (x : Nat) : Nat :=
  (if cfg.prio s < cfg.prio x then (m'.sc x).used - (m.sc x).used else 0) +
    if cfg.prio x = cfg.prio s ∧ x ≠ s then (m.sc x).left + extra x else 0

theorem Waited.used {s : Nat} {m₀ : Machine n k} {extra : Nat → Nat} (waited : Waited cfg s m₀ extra m) {x : Nat}
    (home : cfg.scCpu x = cfg.scCpu s) : (m.sc x).used ≤ (m₀.sc x).used + gain cfg s m₀ m extra x := by
  unfold gain
  rcases Nat.lt_trichotomy (cfg.prio x) (cfg.prio s) with low | same | high
  · have used := waited.lower x home low
    omega
  · by_cases is : x = s
    · subst is
      have used := waited.self
      omega
    · rw [if_pos (⟨same, is⟩ : cfg.prio x = cfg.prio s ∧ x ≠ s)]
      have used : (m.sc x).used ≤ (m₀.sc x).used + (m₀.sc x).left + extra x := by
        rcases waited.share x home same with ⟨-, used⟩ | rest
        · exact used
        · exact Nat.le_of_add_right_le rest
      omega
  · rw [if_pos high]
    omega

/-- **Response time**: while `s` waits, SCs of lower priorities get nothing, and its CPU charges at most the
time that SCs of higher priorities use, and for each other SC of its priority what that had left in the
beginning and the time by which the scheduler was late to preempt it. -/
theorem response_time (cfg : Config n k) (root : Option (Fin n)) (vm : Msg) (count : Nat → Nat) (s : Nat)
    (before events : List (Fin k × Event n)) (m m' : Machine n k) (start : (init cfg root vm count).exec cfg before = .ok m)
    (leads : m.Leads cfg (cfg.prio s) (cfg.scCpu s)) (waits : StaysReady cfg s events m)
    (run : m.exec cfg events = .ok m') :
    m'.stamp (cfg.scCpu s) ≤ m.stamp (cfg.scCpu s) +
      ∑ x ∈ m'.created.toFinset with cfg.scCpu x = cfg.scCpu s ∧ cfg.prio s < cfg.prio x, ((m'.sc x).used - (m.sc x).used) +
      ∑ x ∈ m'.created.toFinset with cfg.scCpu x = cfg.scCpu s ∧ cfg.prio x = cfg.prio s ∧ x ≠ s,
        ((m.sc x).left + overrun cfg x events m) ∧
    ∀ x, cfg.scCpu x = cfg.scCpu s → cfg.prio x < cfg.prio s → (m'.sc x).used = (m.sc x).used := by
  obtain ⟨m₁, reached, sound, parked⟩ := exec_keeps (I := Parked)
    (fun _ _ _ sound _ parked move => parked_move sound.sited parked move) (sound_init cfg root vm count)
    (parked_init cfg root vm count) before
  obtain rfl := Except.ok.inj (start.symm.trans reached)
  obtain ⟨sound', waited⟩ := waited_run sound (waited_start parked leads) waits run
  simp only [Nat.zero_add] at waited
  refine ⟨?_, waited.lower⟩
  rw [← sound.timed.used_eq_stamp, ← sound'.timed.used_eq_stamp]
  have born : ∑ x ∈ m'.created.toFinset with cfg.scCpu x = cfg.scCpu s, (m.sc x).used ≤ m.usedOn cfg (cfg.scCpu s) := by
    refine Finset.sum_le_sum_of_ne_zero fun x member used => ?_
    rw [Finset.mem_filter] at member ⊢
    refine ⟨?_, member.2⟩
    by_contra unborn
    exact used (sound.timed.unborn x fun created => unborn (List.mem_toFinset.mpr created))
  calc m'.usedOn cfg (cfg.scCpu s)
    _ ≤ ∑ x ∈ m'.created.toFinset with cfg.scCpu x = cfg.scCpu s,
          ((m.sc x).used + gain cfg s m m' (fun x => overrun cfg x events m) x) :=
        Finset.sum_le_sum fun x member => waited.used (Finset.mem_filter.mp member).2
    _ = ∑ x ∈ m'.created.toFinset with cfg.scCpu x = cfg.scCpu s, (m.sc x).used +
          (∑ x ∈ m'.created.toFinset with cfg.scCpu x = cfg.scCpu s ∧ cfg.prio s < cfg.prio x,
              ((m'.sc x).used - (m.sc x).used) +
            ∑ x ∈ m'.created.toFinset with cfg.scCpu x = cfg.scCpu s ∧ cfg.prio x = cfg.prio s ∧ x ≠ s,
              ((m.sc x).left + overrun cfg x events m)) := by
        unfold gain
        rw [Finset.sum_add_distrib, Finset.sum_add_distrib, ← Finset.sum_filter, ← Finset.sum_filter, Finset.filter_filter,
          Finset.filter_filter]
    _ ≤ _ := by
        rw [Nat.add_assoc]
        exact Nat.add_le_add_right born _

instance StaysReady.decidable (s : Nat) :
    ∀ (events : List (Fin k × Event n)) (m : Machine n k), Decidable (StaysReady cfg s events m)
  | [], _ => inferInstanceAs (Decidable (s ∈ _))
  | e :: rest, m =>
      have : Decidable (∀ m', m.step cfg e.1 e.2 = .ok m' → StaysReady cfg s rest m') :=
        match m.step cfg e.1 e.2 with
        | .error _ => .isTrue nofun
        | .ok m' =>
            have := StaysReady.decidable s rest m'
            decidable_of_iff (StaysReady cfg s rest m') ⟨fun stays _ is => Except.ok.inj is ▸ stays, fun all => all m' rfl⟩
      inferInstanceAs (Decidable (s ∈ _ ∧ _))

local instance peers_cpus : NeZero 1 := ⟨by decide⟩
local instance peers_ecs : NeZero 3 := ⟨by decide⟩

/-- The idle SC has the lowest priority. -/
def peersPrio (s : Nat) : Nat := if s = 0 then 0 else 1

theorem peersPrio_lt (s : Nat) : peersPrio s < 128 := by
  unfold peersPrio
  split <;> decide

theorem peers_ec_count : 3 ≤ 2 ^ 24 := by decide

/-- One CPU with its idle EC 0 and two global ECs, whose SCs have the same priority -/
def peers : Config 3 1 where
  subtype := fun _ => .ecGlobal
  cpu := fun _ => 0
  ec := fun s => if s = 0 then 0 else if s = 1 then 1 else 2
  prio := peersPrio
  budget := fun _ => 10
  idleEc := fun _ => 0
  idleSc := fun _ => 0
  prio_lt := peersPrio_lt
  idle_cpu := by intro c; exact Subsingleton.elim _ _
  idle_subtype := fun _ => rfl
  idle_ec := fun _ => rfl
  idle_only := by
    intro s c is
    by_contra other
    rw [if_neg other] at is
    split at is <;> cases is
  idle_prio := fun _ => rfl
  ec_count := peers_ec_count

/-- Both SCs are ready. -/
def bothReady : List (Fin 1 × Event 3) := [.createRoot 1, .createRoot 2, .go, .go].map ((0, ·))

/-- SC 1 runs, and is preempted 3 units after the end of its budget. -/
def overruns : List (Fin 1 × Event 3) :=
  [.go, .go, .go, .go, .tick 13, .irq .budget .exception, .go, .go, .go].map ((0, ·))

/-- The state at the end of a run -/
def last (cfg : Config n k) (m : Machine n k) (events : List (Fin k × Event n)) : Machine n k :=
  match m.exec cfg events with
  | .ok m' => m'
  | .error _ => m

theorem exec_last (sound : Sound cfg count m) (events : List (Fin k × Event n)) : m.exec cfg events = .ok (m.last cfg events) := by
  obtain ⟨m', run, -⟩ := exec_keeps (I := fun _ => True) (fun _ _ _ _ _ _ _ => trivial) sound trivial events
  rw [last, run]

/-- SC 1 uses what it has left and 3 units more, and then SC 2 is first in the queue.  The idle SC gets nothing. -/
theorem response_time_peers : ∃ m m' : Machine 3 1, (init peers (some 1) .vmexitVmx fun _ => 0).exec peers bothReady = .ok m ∧
    m.exec peers overruns = .ok m' ∧ (m.sc 1).left = 10 ∧ overrun peers 1 overruns m = 3 ∧ m.stamp 0 = 0 ∧ m'.stamp 0 = 13 ∧
      (m'.cpu 0).ready 1 = [2, 1] ∧ (m'.sc 0).used = (m.sc 0).used ∧ m'.stamp (peers.scCpu 2) ≤ m.stamp (peers.scCpu 2) +
        ∑ x ∈ m'.created.toFinset with peers.scCpu x = peers.scCpu 2 ∧ peers.prio 2 < peers.prio x,
          ((m'.sc x).used - (m.sc x).used) +
        ∑ x ∈ m'.created.toFinset with peers.scCpu x = peers.scCpu 2 ∧ peers.prio x = peers.prio 2 ∧ x ≠ 2,
          ((m.sc x).left + overrun peers x overruns m) := by
  have boots := sound_init peers (some 1) .vmexitVmx (fun _ => 0)
  have start := exec_last boots bothReady
  obtain ⟨m, reached, sound⟩ := exec_sound peers (some 1) .vmexitVmx (fun _ => 0) bothReady
  obtain rfl := Except.ok.inj (start.symm.trans reached)
  have run := exec_last sound overruns
  obtain ⟨charged, lower⟩ := response_time peers (some 1) .vmexitVmx (fun _ => 0) 2 bothReady overruns _ _ start
    (by decide +kernel) (by decide +kernel) run
  refine ⟨_, _, start, run, ?_, ?_, ?_, ?_, ?_, lower 0 rfl (by decide), charged⟩
  · decide +kernel
  · decide +kernel
  · decide +kernel
  · decide +kernel
  · decide +kernel

end Machine

end Nova.Kernel.Contexts
