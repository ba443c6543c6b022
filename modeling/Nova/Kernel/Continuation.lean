/-
# Nova.Kernel.Continuation — who changes the continuation of an EC

`Rewrites` lists the ways in which a step can change the continuation of an EC: the EC
itself, when it leaves its own code; the EC that calls it; the end of its wait on a
semaphore; and the death of its callee.  `Move.runs` says that an EC begins to run at its
continuation.

So an EC that does not run keeps a continuation at which nobody else finds it, until it
runs: `pending_move`.  That is what a killed EC, the caller of a killed EC and a released
waiter have in common.
-/
import Nova.Kernel.Safety

namespace Nova.Kernel.Contexts

open Nova.Theory.Chains
open Nova.Theory.Runs

set_option autoImplicit false

variable {n k : Nat}

/-- The current EC executes code of its own at this place. -/
def Pc.executes : Pc n → Bool
  | .schedule _ | .loop _ | .activate _ _ | .blockSc _ _ _ => false
  | _ => true

/-- The current EC is not at a place where it sets its own continuation. -/
def Pc.rests : Pc n → Bool
  | .dnBlock _ _ _ => true
  | p => !p.executes

namespace Machine

section Rewrites

variable (m m' : Machine n k) (c : Fin k) (e : Fin n)

/-- How a step of CPU `c` can change the continuation of an EC -/
inductive Rewrites : Prop
  | own : m.self c = e → m.view.Active c → (m.cpu c).pc.rests = false → Rewrites
  | killed : m.self c = e → (m.cpu c).pc = .kill → (m'.ec e).cont = some .dead → Rewrites
  | called : (m.ec e).cont = none → Rewrites
  | released : (m.ec e).cont = some .blocking → Rewrites
  | aborts : (m.cpu c).pc = .kill → (m.ec (m.self c)).caller = some e →
      (m'.ec e).cont = some (aborted (m.ec e).cont) → Rewrites

end Rewrites

variable {cfg : Config n k} {m m' : Machine n k} {c : Fin k} {count : Nat → Nat}

/-- The continuation of the current EC changes. -/
theorem rewrites_own {e : Fin n} (active : m.view.Active c) (acts : (m.cpu c).pc.rests = false)
    (others : e ≠ m.self c → (m'.ec e).cont = (m.ec e).cont) : (m'.ec e).cont = (m.ec e).cont ∨ Rewrites m m' c e := by
  by_cases here : m.self c = e
  · exact Or.inr (.own here active acts)
  · exact Or.inl (others (Ne.symm here))

theorem unlinked_cont {a e : Fin n} (f h : Option Cont) : ((m.unlinked c a f h).ec e).cont =
    if e = a then h else if e = m.self c then f else (m.ec e).cont := by
  rw [unlinked, setCpu_ec, setEc_ec]
  split
  · rfl
  · rw [setEc_ec]
    split <;> rfl

theorem Replies.rewrites {a e : Fin n} {f h : Option Cont} (replies : Replies cfg m c a f h) (graph : Graph cfg m.view)
    (caller : (m.ec (m.self c)).caller = some a) (same : (m'.ec e).cont = ((m.unlinked c a f h).ec e).cont) :
    (m'.ec e).cont = (m.ec e).cont ∨ Rewrites m m' c e := by
  have stands : m.view.Stands cfg c (m.cpu c).pc := graph.pc c
  rw [unlinked_cont] at same
  cases replies with
  | reply pc utcb =>
      rw [pc] at stands
      refine rewrites_own stands (by rw [pc]; rfl) fun other => ?_
      rw [same, if_neg other]
      split
      · rename_i here
        rw [here]
      · rfl
  | kill pc =>
      split at same
      · rename_i here
        subst here
        exact Or.inr (.aborts pc caller same)
      · split at same
        · rename_i here
          exact Or.inr (.killed here.symm pc same)
        · exact Or.inl same

theorem Move.cont (move : Move cfg m c m') (graph : Graph cfg m.view) (e : Fin n) :
    (m'.ec e).cont = (m.ec e).cont ∨ Rewrites m m' c e := by
  have stands : m.view.Stands cfg c (m.cpu c).pc := graph.pc c
  cases move with
  | @preempt f pc =>
      rw [pc] at stands
      cases f with
      | user r => exact rewrites_own stands (by rw [pc]; rfl) fun other => by simp [Machine.preempt, other]
      | idle =>
          left
          rw [Machine.preempt, goto_ec]
          refine field_setEc Ec.cont ?_ e
          exact (show (m.ec (m.self c)).cont = some .idle from stands).symm
  | @help i t pc isLocal home busy alive =>
      rw [pc] at stands
      exact rewrites_own stands.1 (by rw [pc]; rfl) fun other => by simp [other]
  | @rendezvous i t pc isLocal home ready =>
      rw [pc] at stands
      by_cases target : e = t
      · exact Or.inr (.called (target ▸ ready))
      · exact rewrites_own stands.1 (by rw [pc]; rfl) fun other => by simp [other, target]
  | @retire f ends caller =>
      rcases ends with ⟨pc, rfl⟩ | ⟨pc, rfl⟩
      · rw [pc] at stands
        exact rewrites_own stands (by rw [pc]; rfl) fun other => by simp [other]
      · by_cases here : e = m.self c
        · exact Or.inr (.killed here.symm pc (by simp [here]))
        · exact Or.inl (by simp [here])
  | donated replies caller callee nonzero => exact replies.rewrites graph caller rfl
  | helped replies caller callee zero => exact replies.rewrites graph caller rfl
  | @suspend i timed pc utcb zero =>
      rw [pc] at stands
      exact rewrites_own stands (by rw [pc]; rfl) fun other => by simp [other]
  | @release i back x rest raises queue =>
      by_cases here : e = x
      · have member : x ∈ (m.sm i).queue := by rw [queue]; exact List.mem_cons_self
        exact Or.inr (.released (here ▸ (graph.waiting x).mpr ⟨i, member⟩))
      · exact Or.inl (by simp [here])
  | @timeout x back y i enabled pending home blocked member =>
      by_cases here : e = y
      · exact Or.inr (.released (here ▸ (graph.waiting y).mpr ⟨i, member⟩))
      · exact Or.inl (by simp [here])
  | finish pc token => exact Or.inl (by rw [goto_ec, field_setEc Ec.cont (by rfl), setSm_ec])
  | cancel pc => exact Or.inl (by rw [goto_ec, field_setEc Ec.cont (by rfl)])
  | take pc positive => exact Or.inl (by rw [goto_ec, field_setEc Ec.cont (by rfl), setSm_ec])
  | @sleep i timed episode pc blocked clear =>
      left
      rw [goto_ec, field_setEc Ec.cont (by cases timed <;> rfl), putQueue_cont]
  | stale enabled pending home awake => exact Or.inl (by rw [goto_ec, field_setEc Ec.cont (by rfl)])
  | wake pc queue => exact Or.inl (by rw [put_ec, takeQueue, setSc_ec, field_setEc Ec.cont (by rfl)])
  | _ => exact Or.inl (by simp)

theorem acts_of_resume {p : Pc n} {x : Msg} {back : Back n} (enabled : p.resume x = some back) : p.rests = false := by
  cases p <;> first | rfl | cases enabled

theorem Raises.acts {back : Back n} (raises : Raises cfg m c back) : (m.cpu c).pc.rests = false := by
  cases raises with
  | hypercall pc utcb => rw [pc]; rfl
  | gsi enabled => exact acts_of_resume enabled

theorem Creates.acts {p : Pc n} (creates : Creates m c p) : (m.cpu c).pc.rests = false := by
  cases creates with
  | hypercall pc => rw [pc]; rfl
  | root pc => rw [pc]; rfl

/-- An EC begins to run with its continuation, or goes on in `Sm::dn` because it was released before its
SC could block. -/
theorem Move.runs (move : Move cfg m c m') {e : Fin n} (current : m'.self c = e) (acts : (m'.cpu c).pc.rests = false) :
    (m.self c = e ∧ (m.cpu c).pc.rests = false) ∨ (∃ g, (m'.cpu c).pc = .run g ∧ (m'.ec e).cont = some g) ∨
      (∃ i timed episode, (m.cpu c).pc = .dnBlock i timed episode) ∧ m.self c = e ∧ (m.ec e).blocked = false ∧
        (m'.cpu c).pc = .finish .success := by
  have stays : m'.self c = m.self c → (m.cpu c).pc.rests = false → m.self c = e ∧ (m.cpu c).pc.rests = false :=
    fun same was => ⟨same.symm.trans current, was⟩
  cases move with
  | stay => exact Or.inl ⟨current, acts⟩
  | tick d => exact Or.inl ⟨current, acts⟩
  | @jump q jump =>
      have here : m.self c = e := by simpa using current
      generalize place : (m.cpu c).pc = p at jump
      cases jump with
      | released i timed episode awake =>
          exact Or.inr (Or.inr ⟨⟨i, timed, episode, rfl⟩, here, here ▸ awake, by rw [goto_pc, if_pos rfl]⟩)
      | rrq enabled => exact Or.inl ⟨here, acts_of_resume enabled⟩
      | resume enabled => exact Or.inl ⟨here, acts_of_resume enabled⟩
      | _ => exact Or.inl ⟨here, rfl⟩
  | preempt pc => exact Or.inl (stays (goto_self ..) (by rw [pc]; rfl))
  | help pc isLocal home busy alive => exact Or.inl (stays (goto_self ..) (by rw [pc]; rfl))
  | @rendezvous i t pc isLocal home ready =>
      obtain rfl : t = e := by simpa [self] using current
      exact Or.inr (Or.inl ⟨i.recv, by simp, by simp⟩)
  | @enter e f a d g pc reached cont runs =>
      simp [self] at current
      subst current
      exact Or.inr (Or.inl ⟨g, by simp, by simpa using cont⟩)
  | look pc reached blocked => simp [Pc.rests, Pc.executes] at acts
  | @unblocked e a i g pc cont runs =>
      simp [self] at current
      subst current
      exact Or.inr (Or.inl ⟨g, by simp, by simpa using cont⟩)
  | @wait e a i pc blocked => cases a <;> simp [after, Pc.rests, Pc.executes] at acts
  | retire ends caller => simp [Pc.rests, Pc.executes] at acts
  | @donated a f g replies caller callee nonzero =>
      simp [self] at current
      subst current
      exact Or.inr (Or.inl ⟨g, by simp, by simp [unlinked]⟩)
  | helped replies caller callee zero => simp [Pc.rests, Pc.executes] at acts
  | finish pc token => exact Or.inl (stays (by simp) (by rw [pc]; rfl))
  | cancel pc => exact Or.inl (stays (by simp) (by rw [pc]; rfl))
  | block pc => simp [Pc.rests, Pc.executes] at acts
  | yield_ pc free home => simp [Pc.rests, Pc.executes] at acts
  | dispatch pc queue armed home => simp [Pc.rests, Pc.executes] at acts
  | wake pc queue => exact Or.inl (stays (by simp) (by rw [pc]; rfl))
  | requeue pc queue home => exact Or.inl (stays (by simp) (by rw [pc]; rfl))
  | create creates fresh bound => exact Or.inl (stays (by rw [goto_self, put_self]; rfl) creates.acts)
  | take pc positive => exact Or.inl (stays (by simp) (by rw [pc]; rfl))
  | suspend pc utcb zero => exact Or.inl (stays (by simp) (by rw [pc]; rfl))
  | sleep pc blocked clear => simp [Pc.rests, Pc.executes] at acts
  | count raises empty room => exact Or.inl (stays (by simp) raises.acts)
  | release raises queue => exact Or.inl (stays (by simp) raises.acts)
  | stale enabled pending home awake => exact Or.inl (stays (by simp) (acts_of_resume enabled))
  | timeout enabled pending home blocked member => exact Or.inl (stays (by simp) (acts_of_resume enabled))
  | sched enabled armed => exact Or.inl (stays (by simp [self]) (acts_of_resume enabled))

/-! ## Waiting to run -/

/-- The EC does not run, and continues at `g`. -/
structure Pending (m : Machine n k) (a : Fin n) (g : Cont) : Prop where
  cont : (m.ec a).cont = some g
  still : ∀ c, m.self c = a → (m.cpu c).pc.rests = true

/-- The EC runs at its continuation `g`, or finishes its down because it was released early. -/
def Resumes (m : Machine n k) (a : Fin n) (g : Cont) : Prop :=
  ∃ c, m.self c = a ∧ ((m.cpu c).pc = .run g ∨ g = .sysFinish .success true ∧ (m.cpu c).pc = .finish .success)

/-- The EC keeps its continuation until it runs, unless that is one from which others release it. -/
theorem pending_move {a : Fin n} {g : Cont} (own : g ≠ .blocking ∧ ∀ r, g ≠ .retUser r) (sound : Sound cfg count m)
    (pending : m.Pending a g) (move : Move cfg m c m') : m'.Pending a g ∨ m'.Resumes a g := by
  have stuck : ∀ {c'}, m.self c' = a → (m.cpu c').pc.rests = false → False := by
    intro c' here acts
    rw [pending.still c' here] at acts
    cases acts
  have cont : (m'.ec a).cont = some g := by
    rcases move.cont sound.graph a with same | rewrites
    · exact same.trans pending.cont
    · cases rewrites with
      | own here active acts => exact (stuck here acts).elim
      | killed here pc dead => exact (stuck here (by rw [pc]; rfl)).elim
      | called none =>
          rw [pending.cont] at none
          cases none
      | released blocking =>
          rw [pending.cont] at blocking
          exact absurd (Option.some.inj blocking) own.1
      | aborts pc caller changed =>
          obtain ⟨-, -, r, waits⟩ := sound.graph.callee a _ (partners sound.graph caller).1
          rw [show m.view.cont a = (m.ec a).cont from rfl, pending.cont] at waits
          exact absurd (Option.some.inj waits) (own.2 r)
  by_cases runs : ∃ c', m'.self c' = a ∧ (m'.cpu c').pc.rests = false
  · obtain ⟨c', here, acts⟩ := runs
    refine Or.inr ⟨c', here, ?_⟩
    by_cases same : c' = c
    · subst same
      rcases move.runs here acts with ⟨was, before⟩ | ⟨g', pc, found⟩ | ⟨⟨i, timed, episode, place⟩, was, awake, pc⟩
      · exact (stuck was before).elim
      · rw [cont] at found
        exact Or.inl (by rw [pc, Option.some.inj found])
      · -- the EC is still in `Sm::dn`, where only `up` can have released it
        have stands : m.view.Stands cfg c' (m.cpu c').pc := sound.graph.pc c'
        rw [place] at stands
        have either : (m.ec a).cont = some .blocking ∨ (m.ec a).cont = some (.sysFinish .success true) := was ▸ stands
        rw [pending.cont] at either
        rcases either with blocking | released
        · exact absurd (Option.some.inj blocking) own.1
        · exact Or.inr ⟨Option.some.inj released, pc⟩
    · obtain ⟨q, kept⟩ := move.elsewhere same
      rw [self, kept] at here
      rw [kept] at acts
      exact (stuck here acts).elim
  · refine Or.inl ⟨cont, fun c' here => ?_⟩
    rw [← Bool.not_eq_false]
    exact fun acts => runs ⟨c', here, acts⟩

/-- **An EC that waits to run continues at `g`, whatever happens in between.** -/
theorem exec_pending {a : Fin n} {g : Cont} (own : g ≠ .blocking ∧ ∀ r, g ≠ .retUser r) (sound : Sound cfg count m)
    (start : m.Pending a g ∨ m.Resumes a g) (later : List (Fin k × Event n)) :
    ∃ m₁, m.exec cfg later = .ok m₁ ∧ (m₁.Pending a g ∨
      ∃ before after m₂, later = before ++ after ∧ m.exec cfg before = .ok m₂ ∧ m₂.Resumes a g) := by
  obtain ⟨m₁, ran, -, until_⟩ := exec_until (fun _ _ _ sound _ pending move => pending_move own sound pending move)
    sound start later
  exact ⟨m₁, ran, until_⟩

/-! ## A small configuration -/

local instance pair_cpus : NeZero 1 := ⟨by decide⟩
local instance pair_ecs : NeZero 3 := ⟨by decide⟩

/-- One CPU with its idle EC 0, a global EC 1 with the SC 1, and a local EC 2 -/
def pair : Config 3 1 where
  subtype := fun e => if e = 2 then .ecLocal else .ecGlobal
  cpu := fun _ => 0
  ec := fun s => if s = 0 then 0 else 1
  prio := fun s => if s = 0 then 0 else 1
  budget := fun _ => 10
  idleEc := fun _ => 0
  idleSc := fun _ => 0
  prio_lt := by
    intro s
    show (if s = 0 then 0 else 1) < 128
    split <;> decide
  idle_cpu := by intro c; exact Subsingleton.elim _ _
  idle_subtype := fun _ => rfl
  idle_ec := fun _ => rfl
  idle_only := by
    intro s c is
    by_contra other
    rw [if_neg other] at is
    cases is
  idle_prio := fun _ => rfl
  ec_count := by decide

end Machine

end Nova.Kernel.Contexts
