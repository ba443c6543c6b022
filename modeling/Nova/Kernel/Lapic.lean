/-
# Nova.Kernel.Lapic — the timer that the list of timeouts lives from

`inc/x86_64/lapic.hpp`, `src/x86_64/lapic.cpp`: the local APIC generates one interrupt for
every value that is written to its timer, either when the time stamp counter has reached
the value (`ratio = 0`) or when a 32-bit counter that runs `ratio` times slower has come
down to 0.  `Timeout::check` is called by the handler of that interrupt and nowhere else,
and the timer is only written when the first timeout changes.

* `timer_kept`: timeouts are waited for as long as every value written lets the interrupt
  come no earlier than the first timeout is due (`Exact`);
* `not_kept_rounded`: the count is rounded down, the interrupt comes too early, finds
  nothing to do and leaves a timeout for which no further interrupt comes.
-/
import Nova.Kernel.Timeout

namespace Nova.Kernel.Timeout

open Nova.Theory.Links
open Nova.Theory.Runs

set_option autoImplicit false

/-! ## The head of the list -/

namespace Timeouts

variable {n : Nat} {τ : Type} {T : Timer τ} {s s' : Timeouts n τ} {L : List (Fin n)} {x : Fin n} {t : Nat}

/-- `enqueue` writes the timer for the timeout that comes first. -/
theorem enqueue_head (lists : s.Lists L) (out : x ∉ L) (done : s.enqueue T x t = some s') :
    (s'.list = s.list ∧ s'.timer = s.timer ∧ ∀ y, s.list = some y → s'.time y = s.time y) ∨
      ((∀ y, s.list = some y → t ≤ s.time y) ∧ s'.list = some x ∧ s'.time x = t ∧ s'.timer = T.setDln t s.timer) := by
  obtain ⟨A, B, s₁, rfl, -, late, is, lists', times, timer⟩ := enqueue_spec (T := T) lists out t
  obtain rfl := Option.some.inj (is.symm.trans done)
  cases A with
  | nil =>
      refine .inr ⟨fun y first => late y ?_, lists'.head, ?_, ?_⟩
      · rw [lists.head] at first
        exact List.mem_of_mem_head? first
      · rw [times, Function.update_self]
      · rw [timer, if_pos rfl]
  | cons a A =>
      refine .inl ⟨lists'.head.trans lists.head.symm, by rw [timer, if_neg nofun], fun y first => ?_⟩
      have ne : y ≠ x := by
        rintro rfl
        rw [lists.head] at first
        exact out (List.mem_of_mem_head? first)
      rw [times, Function.update_of_ne ne]

/-- `dequeue` writes the timer for the successor of the first one. -/
theorem dequeue_head {t : Nat} (lists : s.Lists L) (done : s.dequeue T x = some (t, s')) :
    s'.time = s.time ∧ ((s'.list = s.list ∧ s'.timer = s.timer) ∨
      (s.list = some x ∧ s'.list = s.next x ∧ s'.timer = reprogram T s.time (s.next x) s.timer)) := by
  by_cases member : x ∈ L
  · obtain ⟨A, B, rfl⟩ := List.append_of_mem member
    obtain ⟨s₁, is, lists', times, timer⟩ := dequeue_spec (T := T) lists
    obtain ⟨-, rfl⟩ := Prod.mk.inj (Option.some.inj (is.symm.trans done))
    refine ⟨times, ?_⟩
    cases A with
    | nil =>
        have next : s.next x = B.head? := lists.linked.at_.2
        refine .inr ⟨lists.head, ?_, ?_⟩
        · rw [lists'.head, next]
          rfl
        · rw [timer, if_pos rfl, next]
    | cons a A => exact .inl ⟨lists'.head.trans lists.head.symm, by rw [timer, if_neg nofun]⟩
  · rw [dequeue_out lists member] at done
    obtain ⟨-, rfl⟩ := Prod.mk.inj (Option.some.inj done)
    exact ⟨rfl, .inl ⟨rfl, rfl⟩⟩

end Timeouts

/-! ## The timer -/

/-- `fires` is the time at which the timer generates its interrupt: `TMR_CCR`, or
`IA32_TSC_DEADLINE`, reads as 0 if there is none. -/
structure Lapic where
  now : Nat
  fires : Option Nat
  pending : Bool
deriving DecidableEq, Repr

namespace Lapic

def expire (l : Lapic) : Lapic :=
  match l.fires with
  | some f => if f ≤ l.now then { l with fires := none, pending := true } else l
  | none => l

/-- The value for `TMR_ICR` -/
def count (ratio now tsc : Nat) : Nat :=
  let icr := (tsc - now) % 2 ^ 32 / ratio
  if tsc > now ∧ icr > 0 then icr else 1

def setTimer (ratio tsc : Nat) (l : Lapic) : Lapic :=
  if ratio ≠ 0 then { l with fires := some (l.now + count ratio l.now tsc * ratio) }
  -- the value 0 disarms the timer, a value in the past fires at once
  else expire { l with fires := if tsc = 0 then none else some tsc }

theorem expire_now (l : Lapic) : l.expire.now = l.now := by
  unfold expire
  split
  · split <;> rfl
  · rfl

theorem setTimer_now (ratio tsc : Nat) (l : Lapic) : (l.setTimer ratio tsc).now = l.now := by
  unfold setTimer
  split
  · rfl
  · rw [expire_now]

/-- `Timer` on x86: `stop` does nothing. -/
def timer (ratio : Nat) : Timer Lapic where
  time l := l.now
  setDln tsc l := l.setTimer ratio tsc
  stop l := l
  tick l := expire { l with now := l.now + 1 }
  time_setDln := setTimer_now ratio
  time_stop _ := rfl
  time_tick l := by
    rw [expire_now]
    exact Nat.le_succ l.now

/-- With this value the interrupt does not come before the time `tsc`. -/
def Exact (ratio now tsc : Nat) : Prop :=
  (ratio = 0 ∧ tsc ≠ 0) ∨ (ratio ≠ 0 ∧ (tsc - now ≤ ratio ∨ (tsc - now < 2 ^ 32 ∧ ratio ∣ tsc - now)))
deriving Decidable

/-- An interrupt comes at or after the time `t`, or the time has come. -/
def Covers (t : Nat) (l : Lapic) (busy : Prop) : Prop :=
  (∃ f, l.fires = some f ∧ t ≤ f) ∨ (t ≤ l.now ∧ (l.pending = true ∨ busy))

/-- The timer has not missed its own time. -/
def Ahead (l : Lapic) : Prop := ∀ f, l.fires = some f → l.now < f

variable {ratio tsc : Nat} {l : Lapic} {busy : Prop}

theorem count_pos (ratio now tsc : Nat) : 1 ≤ count ratio now tsc := by
  unfold count
  dsimp only
  split
  · rename_i more
    exact more.2
  · exact le_rfl

theorem count_reaches (positive : ratio ≠ 0) (exact : tsc - l.now ≤ ratio ∨ (tsc - l.now < 2 ^ 32 ∧ ratio ∣ tsc - l.now)) :
    tsc ≤ l.now + count ratio l.now tsc * ratio := by
  have least := count_pos ratio l.now tsc
  rcases exact with near | ⟨small, divides⟩
  · have := Nat.mul_le_mul_right ratio least
    omega
  · by_cases far : tsc - l.now ≤ ratio
    · have := Nat.mul_le_mul_right ratio least
      omega
    · obtain ⟨c, split⟩ := divides
      have is : count ratio l.now tsc = c := by
        have quotient : (tsc - l.now) % 2 ^ 32 / ratio = c := by
          rw [Nat.mod_eq_of_lt small, split, Nat.mul_div_cancel_left c (Nat.pos_of_ne_zero positive)]
        unfold count
        dsimp only
        rw [quotient, if_pos]
        constructor
        · omega
        · rcases Nat.eq_zero_or_pos c with rfl | some
          · omega
          · exact some
      rw [is, Nat.mul_comm, ← split]
      omega

theorem expire_covers {t : Nat} (armed : ∃ f, l.fires = some f ∧ t ≤ f) : Covers t l.expire busy := by
  obtain ⟨f, is, le⟩ := armed
  unfold expire
  rw [is]
  dsimp only
  split
  · exact .inr ⟨le.trans ‹_›, .inl rfl⟩
  · exact .inl ⟨f, is, le⟩

theorem expire_pending (pending : l.pending = true) : l.expire.pending = true := by
  unfold expire
  split
  · split
    · rfl
    · exact pending
  · exact pending

theorem tick_covers (ratio : Nat) {t : Nat} (covers : Covers t l busy) : Covers t ((timer ratio).tick l) busy := by
  rcases covers with armed | ⟨due, why⟩
  · exact expire_covers armed
  · refine .inr ⟨?_, why.imp_left fun pending => expire_pending pending⟩
    exact due.trans ((timer ratio).time_tick l)

theorem expire_ahead (l : Lapic) : l.expire.Ahead := by
  unfold expire
  cases is : l.fires with
  | none =>
      intro f at_
      rw [is] at at_
      cases at_
  | some f =>
      dsimp only
      split
      · nofun
      · intro g at_
        rw [is] at at_
        obtain rfl := Option.some.inj at_
        exact Nat.lt_of_not_le ‹_›

theorem setTimer_covers (exact : Exact ratio l.now tsc) : Covers tsc (l.setTimer ratio tsc) busy := by
  unfold setTimer
  rcases exact with ⟨deadline, some⟩ | ⟨counts, exact⟩
  · rw [if_neg (fun counts => counts deadline), if_neg some]
    exact expire_covers ⟨tsc, rfl, le_rfl⟩
  · rw [if_pos counts]
    exact .inl ⟨_, rfl, count_reaches counts exact⟩

theorem setTimer_ahead (ratio tsc : Nat) (l : Lapic) : (l.setTimer ratio tsc).Ahead := by
  unfold setTimer
  split
  · rename_i positive
    intro f at_
    obtain rfl := Option.some.inj at_
    have := Nat.mul_le_mul (count_pos ratio l.now tsc) (Nat.pos_of_ne_zero positive)
    dsimp only
    omega
  · exact expire_ahead _

end Lapic

/-! ## The handler -/

inductive Event (n : Nat) where
  | timeout (a : Act n)
  | interrupt
deriving DecidableEq

namespace Cpu

variable {n : Nat} {ratio : Nat}

/-- `Lapic::timer_handler` calls `Timeout::check` if the timer has not been written again. -/
def event (ratio : Nat) : Event n → Cpu n Lapic → Option (Cpu n Lapic)
  | .timeout a, s => act (Lapic.timer ratio) a s
  | .interrupt, s =>
      let s := { s with core.timer.pending := false }
      if s.core.timer.fires = none then act (Lapic.timer ratio) .check s else some s

/-- `check` is called by the handler only, and the handler by a pending interrupt. -/
def Occurs (s : Cpu n Lapic) : Event n → Prop
  | .timeout a => a ≠ .check ∧ s.Allowed a
  | .interrupt => s.pc = .idle ∧ s.core.timer.pending = true

instance (s : Cpu n Lapic) : ∀ e, Decidable (s.Occurs e)
  | .timeout a => inferInstanceAs (Decidable (a ≠ .check ∧ s.Allowed a))
  | .interrupt => inferInstanceAs (Decidable (s.pc = .idle ∧ s.core.timer.pending = true))

/-- The time that is written to the timer next, if it is written -/
def programs (s : Cpu n Lapic) : Event n → Option Nat
  | .timeout (.enqueue _ t) => if s.core.list.all fun y => t ≤ s.core.time y then some t else none
  | .timeout (.dequeue x) => if s.core.list = some x then (s.core.next x).map s.core.time else none
  | .timeout .loop => s.core.list.bind fun x =>
      if s.core.time x ≤ s.core.timer.now then (s.core.next x).map s.core.time else none
  | _ => none

def Precise (ratio : Nat) (s : Cpu n Lapic) (e : Event n) : Prop :=
  ∀ tsc ∈ s.programs e, Lapic.Exact ratio s.core.timer.now tsc
deriving Decidable

/-- Some timer interrupt is still to come. -/
def Armed (s : Cpu n Lapic) : Prop := s.core.timer.fires ≠ none ∨ s.core.timer.pending = true

/-- The interrupt that is awaited comes when the first timeout is due, or `check` is at work. -/
structure Kept (ratio : Nat) (s : Cpu n Lapic) : Prop where
  ordered : ∃ L, Ordered (Lapic.timer ratio) False s L
  ahead : s.core.timer.Ahead
  covered : ∀ x, s.core.list = some x → s.core.timer.Covers (s.core.time x) (s.pc ≠ .idle)

variable {s s' : Cpu n Lapic}

theorem Kept.armed (kept : Kept ratio s) (idle : s.pc = .idle) (waits : s.core.list ≠ none) : s.Armed := by
  obtain ⟨x, first⟩ := Option.ne_none_iff_exists'.mp waits
  rcases kept.covered x first with ⟨f, fires, -⟩ | ⟨-, pending | busy⟩
  · refine .inl ?_
    rw [fires]
    nofun
  · exact .inr pending
  · exact absurd idle busy

/-- The timer has been left alone, or written for the new first timeout. -/
theorem Kept.step (kept : Kept ratio s) (ordered : ∃ L, Ordered (Lapic.timer ratio) False s' L)
    (busy : s.pc ≠ .idle → s'.pc ≠ .idle)
    (timer : (s'.core.list = s.core.list ∧ s'.core.timer = s.core.timer ∧
        ∀ y, s.core.list = some y → s'.core.time y = s.core.time y) ∨
      (s'.core.timer = Timeouts.reprogram (Lapic.timer ratio) s'.core.time s'.core.list s.core.timer ∧
        ∀ x, s'.core.list = some x → Lapic.Exact ratio s.core.timer.now (s'.core.time x))) : Kept ratio s' := by
  rcases timer with ⟨list, same, times⟩ | ⟨written, exact⟩
  · refine ⟨ordered, same ▸ kept.ahead, fun x first => ?_⟩
    rw [list] at first
    rw [same, times x first]
    exact (kept.covered x first).imp_right fun ⟨due, why⟩ => ⟨due, why.imp_right busy⟩
  · unfold Timeouts.reprogram at written
    cases head : s'.core.list with
    | none =>
        rw [head] at written
        refine ⟨ordered, written ▸ kept.ahead, fun x first => ?_⟩
        rw [head] at first
        cases first
    | some y =>
        rw [head] at written
        refine ⟨ordered, written ▸ Lapic.setTimer_ahead _ _ _, fun x first => ?_⟩
        obtain rfl := Option.some.inj (head.symm.trans first)
        rw [written]
        exact Lapic.setTimer_covers (exact y head)

/-- What the event answers, with the list still in order -/
theorem Kept.acts (kept : Kept ratio s) {a : Act n} (allowed : s.Allowed a) :
    ∃ s', act (Lapic.timer ratio) a s = some s' ∧ ∃ L, Ordered (Lapic.timer ratio) False s' L := by
  obtain ⟨L, ordered⟩ := kept.ordered
  obtain ⟨s', done, ordered', -⟩ := Cpu.acts ordered allowed nofun
  exact ⟨s', done, ordered'⟩

theorem kept_tick (kept : Kept ratio s) (done : act (Lapic.timer ratio) .tick s = some s')
    (ordered : ∃ L, Ordered (Lapic.timer ratio) False s' L) : Kept ratio s' := by
  obtain rfl := Option.some.inj done
  exact ⟨ordered, Lapic.expire_ahead _, fun x first => Lapic.tick_covers ratio (kept.covered x first)⟩

theorem kept_enqueue (kept : Kept ratio s) {x : Fin n} {t : Nat} (allowed : s.Allowed (.enqueue x t))
    (precise : s.Precise ratio (.timeout (.enqueue x t))) (done : act (Lapic.timer ratio) (.enqueue x t) s = some s')
    (ordered : ∃ L, Ordered (Lapic.timer ratio) False s' L) : Kept ratio s' := by
  obtain ⟨core, is, rfl⟩ := Option.map_eq_some_iff.mp done
  obtain ⟨L, lists⟩ := kept.ordered
  have out : x ∉ L := fun member => by
    have free := allowed.2
    rw [lists.lists.queued_iff.mpr member] at free
    cases free
  refine kept.step ordered (fun busy => busy) ?_
  rcases Timeouts.enqueue_head lists.lists out is with same | ⟨earliest, list, time, timer⟩
  · exact .inl same
  · refine .inr ⟨?_, fun y first => ?_⟩
    · dsimp only
      rw [list, timer, Timeouts.reprogram, time]
    · obtain rfl := Option.some.inj (list.symm.trans first)
      have before : s.core.list.all (fun y => t ≤ s.core.time y) = true := by
        cases head : s.core.list with
        | none => rfl
        | some y => simpa using earliest y head
      dsimp only
      rw [time]
      refine precise t ?_
      rw [Option.mem_def, programs, if_pos before]

theorem kept_dequeue (kept : Kept ratio s) {x : Fin n} (precise : s.Precise ratio (.timeout (.dequeue x)))
    (done : act (Lapic.timer ratio) (.dequeue x) s = some s')
    (ordered : ∃ L, Ordered (Lapic.timer ratio) False s' L) : Kept ratio s' := by
  obtain ⟨⟨t, core⟩, is, rfl⟩ := Option.map_eq_some_iff.mp done
  obtain ⟨L, lists⟩ := kept.ordered
  refine kept.step ordered (fun busy => busy) ?_
  obtain ⟨times, ⟨list, timer⟩ | ⟨first, list, timer⟩⟩ := Timeouts.dequeue_head lists.lists is
  · exact .inl ⟨list, timer, fun y _ => by rw [times]⟩
  · refine .inr ⟨by rw [list, timer, times], fun y head => precise _ ?_⟩
    dsimp only at head
    rw [Option.mem_def, programs, if_pos first, ← list, head, times]
    rfl

theorem kept_loop (kept : Kept ratio s) (precise : s.Precise ratio (.timeout .loop))
    (done : act (Lapic.timer ratio) .loop s = some s')
    (ordered : ∃ L, Ordered (Lapic.timer ratio) False s' L) : Kept ratio s' := by
  rw [act, loop] at done
  cases head : s.core.list with
  | none =>
      rw [head] at done
      obtain rfl := Option.some.inj done
      refine ⟨ordered, kept.ahead, fun x first => ?_⟩
      rw [show s.core.list = some x from first] at head
      cases head
  | some x =>
      rw [head] at done
      dsimp only at done
      by_cases due : s.core.time x ≤ (Lapic.timer ratio).time s.core.timer
      · rw [if_pos due] at done
        have soon : s.core.time x ≤ s.core.timer.now := due
        obtain ⟨⟨t, core⟩, is, rfl⟩ := Option.map_eq_some_iff.mp done
        obtain ⟨L, lists⟩ := kept.ordered
        refine kept.step ordered (fun _ => (by rintro ⟨⟩)) ?_
        obtain ⟨times, ⟨list, timer⟩ | ⟨-, list, timer⟩⟩ := Timeouts.dequeue_head lists.lists is
        · exact .inl ⟨list, timer, fun y _ => by rw [times]⟩
        · refine .inr ⟨by rw [list, timer, times], fun y first => precise _ ?_⟩
          dsimp only at first
          rw [Option.mem_def, programs, head, Option.bind_some, if_pos soon, ← list, first, times]
          rfl
      · -- the loop ends because the first timeout is not due: the timer is still armed for it
        rw [if_neg due] at done
        obtain rfl := Option.some.inj done
        refine ⟨ordered, kept.ahead, fun y first => ?_⟩
        obtain rfl := Option.some.inj (head.symm.trans first)
        exact (kept.covered x head).imp_right fun is => absurd is.1 due

theorem kept_interrupt (kept : Kept ratio s) (idle : s.pc = .idle) :
    ∃ s', event ratio .interrupt s = some s' ∧ Kept ratio s' := by
  obtain ⟨L, ordered⟩ := kept.ordered
  have taken : Ordered (Lapic.timer ratio) False { s with core.timer.pending := false } L :=
    ⟨⟨ordered.lists.head, ordered.lists.linked, ordered.lists.nodup, ordered.lists.sorted, ordered.lists.out⟩,
      ordered.books, ordered.due, nofun, nofun⟩
  rw [event]
  dsimp only
  by_cases expired : s.core.timer.fires = none
  · obtain ⟨s', done, ordered', -⟩ := Cpu.acts (a := .check) taken idle nofun
    refine ⟨s', (if_pos expired).trans done, ?_⟩
    obtain rfl := Option.some.inj done
    refine ⟨ordered', kept.ahead, fun x first => .inr ?_⟩
    rcases kept.covered x first with ⟨f, fires, -⟩ | ⟨due, -⟩
    · rw [fires] at expired
      cases expired
    · exact ⟨due, .inr nofun⟩
  · refine ⟨{ s with core.timer.pending := false }, if_neg expired, ⟨L, taken⟩, kept.ahead, fun x first => .inl ?_⟩
    rcases kept.covered x first with armed | ⟨due, -⟩
    · exact armed
    · -- the timer was written again before the interrupt was taken
      obtain ⟨f, fires⟩ := Option.ne_none_iff_exists'.mp expired
      exact ⟨f, fires, due.trans (Nat.le_of_lt (kept.ahead f fires))⟩

theorem kept_event (kept : Kept ratio s) {e : Event n} (occurs : s.Occurs e) (precise : s.Precise ratio e) :
    ∃ s', event ratio e s = some s' ∧ Kept ratio s' := by
  cases e with
  | interrupt => exact kept_interrupt kept occurs.1
  | timeout a =>
      obtain ⟨noCheck, allowed⟩ := occurs
      obtain ⟨s', done, ordered⟩ := kept.acts allowed
      refine ⟨s', done, ?_⟩
      cases a with
      | tick => exact kept_tick kept done ordered
      | enqueue x t => exact kept_enqueue kept allowed precise done ordered
      | dequeue x => exact kept_dequeue kept precise done ordered
      | check => exact absurd rfl noCheck
      | loop => exact kept_loop kept precise done ordered
      | done =>
          obtain rfl := Option.some.inj done
          exact kept.step ordered (fun _ => nofun) (.inl ⟨rfl, rfl, fun _ _ => rfl⟩)

/-- **Timeouts are waited for**: in every run in which the timer is written exactly, some
interrupt is still to come whenever the list is not empty outside the handler. -/
theorem timer_kept (ratio now : Nat) (run : List (Event n))
    (legal : Legal (event ratio) Occurs (start ⟨now, none, false⟩) run)
    (precise : Legal (event ratio) (Precise ratio) (start ⟨now, none, false⟩) run) :
    ∃ s, runs (event ratio) (start ⟨now, none, false⟩) run = some s ∧
      (s.pc = .idle → s.core.list ≠ none → s.Armed) := by
  have begin_ : Kept ratio (start ⟨now, none, false⟩ : Cpu n Lapic) := ⟨⟨[], start_ordered _⟩, nofun, nofun⟩
  obtain ⟨s, reached, kept⟩ := Legal.safe (I := Kept ratio) (fun s e kept holds => kept_event kept holds.1 (holds.2 trivial))
    run _ begin_ (legal.and fun _ : True => precise)
  exact ⟨s, reached, kept.armed⟩

/-- With a timeout that is due at 4 and a counter that is 2 times slower, the interrupt comes
when it is due. -/
theorem timer_kept_even : ∃ s, runs (event 2) (start ⟨0, none, false⟩ : Cpu 1 Lapic)
    [.timeout (.enqueue 0 4), .timeout .tick, .timeout .tick] = some s ∧
      (s.pc = .idle → s.core.list ≠ none → s.Armed) :=
  timer_kept 2 0 _ (by decide +kernel) (by decide +kernel)

/-- A timeout that is due at 3: the count is 1, and the interrupt comes at 2. -/
def early : List (Event 1) :=
  [.timeout (.enqueue 0 3), .timeout .tick, .timeout .tick, .interrupt, .timeout .loop]

/-- **The interrupt that comes too early is the last one.** -/
theorem not_kept_rounded : ¬ ∀ (ratio : Nat) (run : List (Event 1)) (s : Cpu 1 Lapic),
    Legal (event ratio) Occurs (start ⟨0, none, false⟩) run → runs (event ratio) (start ⟨0, none, false⟩) run = some s →
    s.pc = .idle → s.core.list ≠ none → s.Armed := by
  intro always
  have final : (runs (event 2) (start ⟨0, none, false⟩) early).map (fun s => (s.pc, s.core.list, s.core.timer)) =
      some (.idle, some 0, ⟨2, none, false⟩) := by
    decide +kernel
  obtain ⟨s, reached, is⟩ := Option.map_eq_some_iff.mp final
  obtain ⟨idle, is⟩ := Prod.mk.inj is
  obtain ⟨list, timer⟩ := Prod.mk.inj is
  have armed := always 2 early s (by decide +kernel) reached idle (by rw [list]; nofun)
  rw [Armed, timer] at armed
  revert armed
  decide

end Cpu

end Nova.Kernel.Timeout
