/-
# Nova.Kernel.Safety — no assertion fails

`Sound` collects what the previous modules prove of the states that a machine can reach.
From a sound state every step of every CPU succeeds and leads to a sound state, so that
runs of any length succeed: none of the assertions of the IPC path, of the queues, of the
scheduler and of the timeouts fails, and no null pointer is followed.

`exec_keeps` is the rule for what holds in all states after a given one, and `exec_until` for
what holds up to an event.
-/
import Nova.Kernel.Budget
import Nova.Kernel.Donation
import Nova.Kernel.Priority
import Nova.Kernel.Wakeup

namespace Nova.Kernel.Contexts

open Nova.Theory.Chains
open Nova.Theory.Runs

set_option autoImplicit false

variable {n k : Nat}

namespace Machine

structure Sound (cfg : Config n k) (count : Nat → Nat) (m : Machine n k) : Prop where
  graph : Graph cfg m.view
  sited : Sited cfg m.shelves
  waits : Waits cfg m
  wakes : Wakes cfg m
  ranked : Ranked cfg m
  timed : Timed cfg m
  donated : Donated cfg m
  ledger : Ledger count m

variable {cfg : Config n k} {count : Nat → Nat} {m m' : Machine n k} {c : Fin k}

theorem ledger_init (cfg : Config n k) (root : Option (Fin n)) (vm : Msg) (count : Nat → Nat) :
    Ledger count (init cfg root vm count) := by
  intro i
  have nobody : (init cfg root vm count).holders i = ∅ := by
    apply Finset.filter_false_of_mem
    exact nofun
  rw [nobody, Finset.card_empty]
  rfl

theorem sound_init (cfg : Config n k) (root : Option (Fin n)) (vm : Msg) (count : Nat → Nat) :
    Sound cfg count (init cfg root vm count) where
  graph := graph_init cfg root vm count
  sited := sited_init cfg root vm count
  waits := waits_init cfg root vm count
  wakes := wakes_init cfg root vm count
  ranked := ranked_init cfg root vm count
  timed := timed_init cfg root vm count
  donated := donated_init cfg root vm count
  ledger := ledger_init cfg root vm count

namespace Sound

/-- In a sound state there is no cause for the assertions about timeouts and the ready queue. -/
theorem cause (sound : Sound cfg count m) {fault : Fault} (cause : Cause m c fault) : fault.Partner ∨ fault.Places := by
  cases fault with
  | ready =>
      obtain ⟨t, pc, empty⟩ := cause
      exact absurd empty (sound.ranked.ready pc)
  | timeout =>
      rcases cause with ⟨t, pc, armed⟩ | ⟨i, episode, pc, pending⟩
      · have disarmed := (sound.timed.clocked c).disarmed (by rw [pc]; rfl)
        rw [armed] at disarmed
        cases disarmed
      · have quiet := sound.waits.quiet c
        rw [pc] at quiet
        exact absurd quiet.1 pending
  | dequeue =>
      obtain ⟨e, i, pending, blocked, out⟩ := cause
      rcases (sound.waits.timeouts e i pending).2 with member | released
      · exact absurd member out
      · rw [Ec.blocked, released] at blocked
        cases blocked
  | queued => exact Or.inr trivial
  | wrongCpu => exact Or.inr trivial
  | schedule => exact Or.inr trivial
  | _ => exact Or.inl trivial

theorem move (sound : Sound cfg count m) (graph : Graph cfg m'.view) (sited : Sited cfg m'.shelves)
    (move : Move cfg m c m') : Sound cfg count m' where
  graph := graph
  sited := sited
  waits := waits_move sound.graph sound.waits move
  wakes := wakes_move sound.graph sound.sited sound.waits sound.wakes move
  ranked := ranked_move sound.graph sound.sited sound.ranked move
  timed := timed_move sound.sited sound.timed move
  donated := donated_move sound.graph sound.donated move
  ledger := ledger_move sound.graph sound.waits sound.ledger move

end Sound

/-- **Every step from a sound state succeeds** and leads to a sound state. -/
theorem step_sound (sound : Sound cfg count m) (c : Fin k) (event : Event n) :
    ∃ m', m.step cfg c event = .ok m' ∧ Move cfg m c m' ∧ Sound cfg count m' := by
  have graph := step_graph (c := c) sound.graph event
  have sited := step_places (c := c) sound.graph sound.sited event
  have move := step_move (c := c) sound.graph event
  cases result : m.step cfg c event with
  | ok m' =>
      rw [result] at graph sited move
      exact ⟨m', rfl, move, sound.move graph sited move⟩
  | error fault =>
      rw [result] at graph sited move
      rcases sound.cause move with partner | places
      · exact absurd partner graph
      · exact absurd places sited

theorem exec_append (first second : List (Fin k × Event n)) :
    m.exec cfg (first ++ second) = (m.exec cfg first).bind fun m' => m'.exec cfg second :=
  List.foldlM_append

theorem exec_single (c : Fin k) (event : Event n) : m.exec cfg [(c, event)] = m.step cfg c event := by
  rw [exec, List.foldlM_cons]
  cases m.step cfg c event <;> rfl

/-- **Invariant rule**: what every move from a sound state keeps holds in every state that a run
reaches. -/
theorem exec_keeps {I : Machine n k → Prop}
    (keeps : ∀ m m' c, Sound cfg count m → Sound cfg count m' → I m → Move cfg m c m' → I m')
    (sound : Sound cfg count m) (holds : I m) (events : List (Fin k × Event n)) :
    ∃ m', m.exec cfg events = .ok m' ∧ Sound cfg count m' ∧ I m' := by
  refine Meets.total (Meets.foldlM (fun m e inv => ?_) events m ⟨sound, holds⟩)
  obtain ⟨m', done, move, sound'⟩ := step_sound inv.1 e.1 e.2
  rw [done]
  exact ⟨sound', keeps m m' e.1 inv.1 sound' inv.2 move⟩

/-- **Until rule**: `I` holds in every state that a run reaches, unless `Q` has held before. -/
theorem exec_until {I Q : Machine n k → Prop}
    (keeps : ∀ m m' c, Sound cfg count m → Sound cfg count m' → I m → Move cfg m c m' → I m' ∨ Q m')
    (sound : Sound cfg count m) (holds : I m ∨ Q m) (events : List (Fin k × Event n)) :
    ∃ m', m.exec cfg events = .ok m' ∧ Sound cfg count m' ∧
      (I m' ∨ ∃ before after m₁, events = before ++ after ∧ m.exec cfg before = .ok m₁ ∧ Q m₁) := by
  induction events generalizing m with
  | nil =>
      rcases holds with holds | event
      · exact ⟨m, rfl, sound, Or.inl holds⟩
      · exact ⟨m, rfl, sound, Or.inr ⟨[], [], m, rfl, rfl, event⟩⟩
  | cons e rest ih =>
      rcases holds with holds | event
      · obtain ⟨m₁, done, move, sound₁⟩ := step_sound sound e.1 e.2
        have run : ∀ later, m.exec cfg (e :: later) = m₁.exec cfg later := by
          intro later
          rw [exec, List.foldlM_cons, done]
          rfl
        obtain ⟨m', finished, sound', result⟩ := ih sound₁ (keeps m m₁ e.1 sound sound₁ holds move)
        refine ⟨m', (run rest).trans finished, sound', ?_⟩
        rcases result with last | ⟨before, after, m₂, split, reached, event⟩
        · exact Or.inl last
        · exact Or.inr ⟨e :: before, after, m₂, by rw [split]; rfl, (run before).trans reached, event⟩
      · obtain ⟨m', finished, sound', -⟩ := exec_keeps (I := fun _ => True) (fun _ _ _ _ _ _ _ => trivial) sound trivial
          (e :: rest)
        exact ⟨m', finished, sound', Or.inr ⟨[], e :: rest, m, rfl, rfl, event⟩⟩

/-- **Every run succeeds.** -/
theorem exec_sound (cfg : Config n k) (root : Option (Fin n)) (vm : Msg) (count : Nat → Nat)
    (events : List (Fin k × Event n)) :
    ∃ m, (init cfg root vm count).exec cfg events = .ok m ∧ Sound cfg count m := by
  obtain ⟨m, done, sound, -⟩ := exec_keeps (I := fun _ => True) (fun _ _ _ _ _ _ _ => trivial)
    (sound_init cfg root vm count) trivial events
  exact ⟨m, done, sound⟩

end Machine

end Nova.Kernel.Contexts
