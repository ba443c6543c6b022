/-
# Nova.Kernel.Ipc — partners and donated time

What holds of the links between callers and callees in every state of every run, and what
the counter `donations` says about them: it is the number of partners between the EC at
which `activate` entered the chain and the current EC.  So `reply` and `kill` can tell
whether the caller waits for the time of this SC.

`clr_partner` decrements the counter at 0 as well.  `overwritten` says that nobody sees the
value that this leaves: the CPU stands in front of `activate`, and what it does there does
not depend on the counter.
-/
import Nova.Kernel.Continuation

namespace Nova.Kernel.Contexts

open Nova.Theory.Chains
open Nova.Theory.Runs

set_option autoImplicit false

variable {n k : Nat}

namespace Machine

variable (cfg : Config n k) (m : Machine n k)

/-- The partner graph is a set of simple chains. -/
structure Partnered : Prop where
  inverse : ∀ e f, (m.ec e).callee = some f ↔ (m.ec f).caller = some e
  injective : ∀ e e' f, (m.ec e).callee = some f → (m.ec e').callee = some f → e = e'
  acyclic : ∀ e d, hop m.callee (d + 1) e ≠ some e
  ends : ∀ e, ∃ f d, follow m.callee n e = some (f, d)
  alone : ∀ e, (m.ec e).cont = none → (m.ec e).caller = none ∧ (m.ec e).callee = none
  current : ∀ c, (m.ec (m.self c)).callee = none
  locals : ∀ e f, (m.ec f).caller = some e → cfg.subtype f = .ecLocal

variable {cfg m} {m' : Machine n k} {c : Fin k} {count : Nat → Nat}

theorem Sound.partnered (sound : Sound cfg count m) : m.Partnered cfg := by
  have graph := sound.graph
  refine ⟨graph.inverse, fun e e' f first second => ?_, fun e d => ?_, fun e => ?_, fun e fresh => ⟨?_, ?_⟩, graph.last,
    fun e f caller => ?_⟩
  · have caller : (m.ec f).caller = some e := (graph.inverse e f).mp first
    rw [(show (m.ec f).caller = some e' from (graph.inverse e' f).mp second)] at caller
    exact (Option.some.inj caller).symm
  · exact (graph.ends e).not_cycle d
  · exact follow_of_ends (graph.ends e) (by rw [Fintype.card_fin])
  · exact graph.fresh e fresh
  · cases callee : (m.ec e).callee with
    | none => rfl
    | some f =>
        obtain ⟨-, -, r, waits⟩ := graph.callee e f callee
        rw [show m.view.cont e = none from fresh] at waits
        cases waits
  · exact (graph.callee e f ((graph.inverse e f).mpr caller)).1

/-- **In every state of every run the partners form simple chains.**  The run succeeds: the
assertions of `recv_kern`, `recv_user`, `reply`, `state_load` and `state_save` hold. -/
theorem exec_partnered (cfg : Config n k) (root : Option (Fin n)) (vm : Msg) (count : Nat → Nat)
    (events : List (Fin k × Event n)) :
    ∃ m, (init cfg root vm count).exec cfg events = .ok m ∧ m.Partnered cfg := by
  obtain ⟨m, done, sound⟩ := exec_sound cfg root vm count events
  exact ⟨m, done, sound.partnered⟩

/-! ## Donated time -/

end Machine

theorem Pc.target_of_executes {p : Pc n} (executes : p.executes = true) (e : Fin n) : p.target e = some e := by
  cases p <;> first | rfl | cases executes

namespace Machine

/-- The EC is on the chain of partners along which the current SC was donated. -/
def OnChain (m : Machine n k) (c : Fin k) (e : Fin n) : Prop := ∃ d, hop m.callee d (m.cpu c).entry = some e

/-- The event is a `sys_ipc_reply` or the call of `kill`. -/
def Answers (cfg : Config n k) (m : Machine n k) (c : Fin k) (event : Event n) : Prop :=
  (m.cpu c).pc = .user ∧ cfg.Utcb (m.self c) ∧ event = .hypercall .ipcReply ∨ (m.cpu c).pc = .kill ∧ event = .go

/-- `donations` counts the partners from the EC where the chain was entered to the current EC,
the caller gets the SC back exactly if it is on that chain, and a counter that wrapped around is
not read. -/
structure Donates (cfg : Config n k) (m : Machine n k) : Prop where
  edges : ∀ c, (m.cpu c).pc.executes = true →
    ∀ d, hop m.callee d (m.cpu c).entry = some (m.self c) ↔ d = (m.cpu c).donations
  entered : ∀ c c' event m', m.step cfg c event = .ok m' → (m'.cpu c').entry = (m.cpu c').entry ∨
    c' = c ∧ ∃ a, (m.cpu c).pc = .activate (m'.cpu c).entry a
  activates : ∀ c c' event m' e a, m.step cfg c event = .ok m' → (m'.cpu c').pc = .activate e a →
    (m.cpu c').pc = .activate e a ∨ e = cfg.ec (m'.cpu c').sc ∨ (m.cpu c').pc = .help e
  returns : ∀ c a event, m.Answers cfg c event → (m.ec (m.self c)).caller = some a →
    ∃ m', m.step cfg c event = .ok m' ∧
      (m.OnChain c a → (m'.cpu c).current = a ∧ ∃ g, (m'.cpu c).pc = .run g ∧ (m'.ec a).cont = some g) ∧
      (¬ m.OnChain c a → (m'.cpu c).current ≠ a ∧ (m'.cpu c).pc = .activate (cfg.ec (m.cpu c).sc) .schedule)
  overwritten : ∀ c e a, (m.cpu c).pc = .activate e a → ∀ later, (c, Event.go) ∉ later →
    ∃ m', m.exec cfg later = .ok m' ∧ (m'.cpu c).pc = .activate e a ∧ (m'.cpu c).donations = (m.cpu c).donations ∧
      ∀ d, (m'.setCpu c fun x => { x with donations := d }).step cfg c .go = m'.step cfg c .go

variable {cfg : Config n k} {m m' : Machine n k} {c : Fin k} {count : Nat → Nat}

theorem Sound.edges (sound : Sound cfg count m) (executes : (m.cpu c).pc.executes = true) (d : Nat) :
    hop m.callee d (m.cpu c).entry = some (m.self c) ↔ d = (m.cpu c).donations := by
  have chain := sound.donated.chain c _ (Pc.target_of_executes executes (m.self c))
  -- the current EC is the end of the chain, so that no other number of steps leads to it
  have apart : ∀ {i j : Nat}, i < j → hop m.callee i (m.cpu c).entry = some (m.self c) →
      hop m.callee j (m.cpu c).entry ≠ some (m.self c) := by
    intro i j less first second
    obtain ⟨l, rfl⟩ := Nat.exists_eq_add_of_lt less
    rw [Nat.add_assoc, hop_add, first] at second
    exact (sound.graph.ends (m.self c)).not_cycle l second
  constructor
  · intro reached
    rcases Nat.lt_trichotomy d (m.cpu c).donations with less | equal | greater
    · exact absurd chain (apart less reached)
    · exact equal
    · exact absurd reached (apart greater chain)
  · rintro rfl
    exact chain

/-- The caller is on the chain exactly if the chain has an edge. -/
theorem Sound.onChain_iff (sound : Sound cfg count m) (executes : (m.cpu c).pc.executes = true) {a : Fin n}
    (caller : (m.ec (m.self c)).caller = some a) : m.OnChain c a ↔ (m.cpu c).donations ≠ 0 := by
  obtain ⟨callee, ne⟩ := partners sound.graph caller
  constructor
  · rintro ⟨d, reached⟩ zero
    have next : hop m.callee (d + 1) (m.cpu c).entry = some (m.self c) := by
      rw [hop_succ, reached]
      exact callee
    rw [sound.edges executes, zero] at next
    cases next
  · intro nonzero
    obtain ⟨d, -, reached⟩ := sound.donated.caller_on_chain sound.graph (Pc.target_of_executes executes _) caller nonzero
    exact ⟨d, reached⟩

theorem put_entry (m : Machine n k) (s : Nat) : ((m.put cfg c s).cpu c).entry = (m.cpu c).entry :=
  congrArg Prod.snd (put_chain m s c)

/-- The beginning of the chain is the EC on which `activate` is called. -/
theorem Move.entry (move : Move cfg m c m') :
    (m'.cpu c).entry = (m.cpu c).entry ∨ ∃ a, (m.cpu c).pc = .activate (m'.cpu c).entry a := by
  cases move with
  | @enter e f a d g pc reached cont runs => exact Or.inr ⟨a, by simpa using pc⟩
  | @look e f a d pc reached blocked => exact Or.inr ⟨a, by simpa using pc⟩
  | @wait e a i pc blocked => exact Or.inl (by cases a <;> simp [after])
  | @wake e back s rest pc queue => exact Or.inl (put_entry ..)
  | @create s p creates fresh bound =>
      refine Or.inl ?_
      rw [goto_cpu, if_pos rfl]
      exact put_entry ..
  | _ => exact Or.inl (by simp [Machine.preempt, unlinked, charge, putReady, pick, takeRelease])

theorem back_not_activate (back : Back n) (e : Fin n) (a : After) : back.pc ≠ .activate e a := by cases back <;> nofun

theorem Jump.activates {p q : Pc n} {e : Fin n} {a : After} (jump : Jump cfg m c p q) (there : q = .activate e a) : p = .help e := by
  cases jump with
  | help t =>
      cases there
      rfl
  | pass f free => cases f <;> cases there
  | woken e back empty => exact absurd there (back_not_activate _ _ _)
  | requeued t back empty => exact absurd there (back_not_activate _ _ _)
  | resume enabled => exact absurd there (back_not_activate _ _ _)
  | _ => cases there

/-- `activate` is called on the EC of the SC, or on the one that the current EC helps. -/
theorem Move.activates {e : Fin n} {a : After} (move : Move cfg m c m') (there : (m'.cpu c).pc = .activate e a) :
    (m.cpu c).pc = .activate e a ∨ e = cfg.ec (m'.cpu c).sc ∨ (m.cpu c).pc = .help e := by
  cases move with
  | jump jump =>
      rw [goto_pc, if_pos rfl] at there
      exact Or.inr (Or.inr (jump.activates there))
  | @wait e a i pc blocked => 
     cases a <;> simp [after] at there
  | @helped a f h replies caller callee zero =>
      simp [unlinked] at there ⊢
      exact Or.inr (Or.inl there.1.symm)
  | @dispatch t s rest pc queue armed home =>
      simp [pick] at there ⊢
      exact Or.inr (Or.inl there.1.symm)
  | @wake e back s rest pc queue =>
      rw [pc_put, takeQueue_cpu] at there
      exact Or.inl there
  | requeue pc queue home => 
     rw [pc_putReady, takeRelease_pc] at there
     exact Or.inl there
  | @create s p creates fresh bound => 
      rw [goto_pc, if_pos rfl] at there
      cases creates <;> cases there
  | stay => exact Or.inl there
  | tick d => exact Or.inl there
  | _ => simp [Machine.preempt, unlinked, charge, putReady, back_not_activate] at there


/-- Only `activate` leaves the place in front of it. -/
theorem step_parked {e : Fin n} {a : After} (pc : (m.cpu c).pc = .activate e a) {event : Event n} (other : event ≠ .go) :
    ∃ d, m.step cfg c event = .ok { m with now := m.now + d } := by
  cases event with
  | tick d => exact ⟨d, rfl⟩
  | go => exact absurd rfl other
  | hypercall h => exact ⟨0, by simp [step, hypercall, pc]⟩
  | irq i x => exact ⟨0, by simp [step, irq, pc, Pc.resume]⟩
  | _ => exact ⟨0, by simp [step, pc]⟩

/-- `activate` does not read the counter. -/
theorem go_parked {e : Fin n} {a : After} (pc : (m.cpu c).pc = .activate e a) (d : Nat) :
    (m.setCpu c fun x => { x with donations := d }).step cfg c .go = m.step cfg c .go := by
  have here : ((m.setCpu c fun x => { x with donations := d }).cpu c).pc = .activate e a := by simpa using pc
  simp only [step, go, pc, here, activate, setCpu_ec, setCpu_setCpu]
  rfl

theorem exec_parked {e : Fin n} {a : After} (sound : Sound cfg count m) (pc : (m.cpu c).pc = .activate e a)
    (later : List (Fin k × Event n)) (still : (c, Event.go) ∉ later) :
    ∃ m', m.exec cfg later = .ok m' ∧ (m'.cpu c).pc = .activate e a ∧ (m'.cpu c).donations = (m.cpu c).donations := by
  induction later generalizing m with
  | nil => exact ⟨m, rfl, pc, rfl⟩
  | cons x rest ih =>
      obtain ⟨c', event⟩ := x
      obtain ⟨m₁, done, move, sound₁⟩ := step_sound sound c' event
      have same : (m₁.cpu c).pc = (m.cpu c).pc ∧ (m₁.cpu c).donations = (m.cpu c).donations := by
        by_cases here : c' = c
        · subst here
          have other : event ≠ .go := fun is => still (is ▸ List.mem_cons_self)
          obtain ⟨d, parked⟩ : ∃ d, m.step cfg c' event = .ok { m with now := m.now + d } := step_parked pc other
          rw [done] at parked
          obtain rfl := Except.ok.inj parked
          exact ⟨rfl, rfl⟩
        · obtain ⟨q, kept⟩ := move.elsewhere (Ne.symm here)
          rw [kept]
          exact ⟨rfl, rfl⟩
      obtain ⟨m', finished, there, donations⟩ := ih sound₁ (same.1.trans pc) fun member => still (List.mem_cons_of_mem _ member)
      refine ⟨m', ?_, there, donations.trans same.2⟩
      rw [exec, List.foldlM_cons, done]
      exact finished

theorem Sound.returns (sound : Sound cfg count m) {a : Fin n} {event : Event n} (answers : m.Answers cfg c event)
    (caller : (m.ec (m.self c)).caller = some a) :
    ∃ m', m.step cfg c event = .ok m' ∧
      (m.OnChain c a → (m'.cpu c).current = a ∧ ∃ g, (m'.cpu c).pc = .run g ∧ (m'.ec a).cont = some g) ∧
      (¬ m.OnChain c a → (m'.cpu c).current ≠ a ∧ (m'.cpu c).pc = .activate (cfg.ec (m.cpu c).sc) .schedule) := by
  obtain ⟨callee, ne⟩ := partners sound.graph caller
  have answer : ∃ f g, m.step cfg c event = .ok (m.replied cfg c a f g) := by
    rcases answers with ⟨pc, utcb, rfl⟩ | ⟨pc, rfl⟩
    · obtain ⟨-, -, r, waits⟩ := sound.graph.callee a _ callee
      refine ⟨none, .retUser r, ?_⟩
      simp only [step, hypercall, pc, utcb, and_self, if_true]
      exact sysIpcReply_eq sound.graph caller waits
    · refine ⟨some .dead, aborted (m.ec a).cont, ?_⟩
      simp only [step, go, pc]
      exact kill_eq sound.graph caller
  have executes : (m.cpu c).pc.executes = true := by
    rcases answers with ⟨pc, -, -⟩ | ⟨pc, -⟩ <;> rw [pc] <;> rfl
  obtain ⟨f, g, done⟩ := answer
  refine ⟨_, done, fun on => ?_, fun off => ?_⟩
  · rw [replied, if_neg ((sound.onChain_iff executes caller).mp on)]
    exact ⟨by simp, g, by simp, by simp [unlinked]⟩
  · have zero : (m.cpu c).donations = 0 := not_not.mp fun nonzero => off ((sound.onChain_iff executes caller).mpr nonzero)
    rw [replied, if_pos zero]
    exact ⟨by simpa [unlinked, self] using ne, by simp⟩

theorem Sound.donates (sound : Sound cfg count m) : m.Donates cfg where
  edges := fun c executes d => sound.edges executes d
  entered := by
    intro c c' event m' done
    obtain ⟨m₁, done₁, move, -⟩ := step_sound sound c event
    obtain rfl := Except.ok.inj (done₁.symm.trans done)
    by_cases here : c' = c
    · subst here
      exact move.entry.imp_right fun is => ⟨rfl, is⟩
    · obtain ⟨q, kept⟩ := move.elsewhere here
      exact Or.inl (by rw [kept])
  activates := by
    intro c c' event m' e a done there
    obtain ⟨m₁, done₁, move, -⟩ := step_sound sound c event
    obtain rfl := Except.ok.inj (done₁.symm.trans done)
    by_cases here : c' = c
    · subst here
      exact move.activates there
    · obtain ⟨q, kept⟩ := move.elsewhere here
      rw [kept] at there
      exact Or.inl there
  returns := fun c a event answers caller => sound.returns answers caller
  overwritten := by
    intro c e a pc later still
    obtain ⟨m', done, there, donations⟩ := exec_parked sound pc later still
    exact ⟨m', done, there, donations, go_parked there⟩

/-- **In every state of every run `donations` is the length of the chain along which the current SC
was donated**, and `reply` and `kill` give it back along that chain. -/
theorem exec_donates (cfg : Config n k) (root : Option (Fin n)) (vm : Msg) (count : Nat → Nat)
    (events : List (Fin k × Event n)) :
    ∃ m, (init cfg root vm count).exec cfg events = .ok m ∧ m.Donates cfg := by
  obtain ⟨m, done, sound⟩ := exec_sound cfg root vm count events
  exact ⟨m, done, sound.donates⟩

end Machine

end Nova.Kernel.Contexts
