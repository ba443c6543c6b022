/-
# Nova.Kernel.RcuGrace — the callbacks wait for every CPU

A callback is put into `next` when it is deferred.  `update` moves `next` to `curr` and lets
it wait for the batch after the one that it has seen before: no CPU has been quiet in that
batch yet, so when it ends every CPU has been quiet since the callback was deferred.

* `Waits`: the callbacks of one CPU in `next`, `curr` and `done`;
* `act_sound`: every access keeps `Sound`, the invariant of the batches and the callbacks;
* `Sound.safe`: what the invariant is for.
-/
import Nova.Kernel.Rcu

namespace Nova.Kernel.Rcu

open Nova.Theory.Runs

set_option autoImplicit false

namespace State

variable {n : Nat} {E : Type} {s : State n Nat Nat E}

/-- The callbacks of a CPU: those in `curr` wait for the batch `c_batch` to end, in which all
CPUs have been quiet after they were deferred. -/
structure Waits (since : E → Fin n → Nat) (begun quieted : Fin n → Nat) (c : Cpu Nat Nat E) : Prop where
  fresh : ∀ e ∈ c.next, ∀ k, since e k ≤ begun k
  soon : c.pc = .complete → ∀ e ∈ c.next, ∀ k, since e k ≤ c.lBatch
  later : ∀ e ∈ c.curr, ∀ k, since e k < c.cBatch
  expired : ∀ e ∈ c.held, ∀ k, since e k < quieted k
  target : c.curr ≠ [] → c.cBatch ≤ c.lBatch + 1 ∧ c.lBatch ≤ c.cBatch + 1 ∧ (c.pc ≠ .complete → c.lBatch ≤ c.cBatch)

structure Grace [DecidableEq E] (s : State n Nat Nat E) : Prop where
  waits : ∀ i, Waits s.since s.begun s.quieted (s.cpu i)
  books : ∀ e, s.called e = s.invoked e + ∑ i, (waiting (s.cpu i)).count e

theorem Waits.mono {since : E → Fin n → Nat} {begun begun' quieted quieted' : Fin n → Nat} {c : Cpu Nat Nat E}
    (waits : Waits since begun quieted c) (more : ∀ k, begun k ≤ begun' k) (more' : ∀ k, quieted k ≤ quieted' k) :
    Waits since begun' quieted' c :=
  ⟨fun e member k => (waits.fresh e member k).trans (more k), waits.soon, waits.later,
    fun e member k => (waits.expired e member k).trans_le (more' k), waits.target⟩

/-- The CPU goes on with the same lists. -/
theorem Waits.goes {since : E → Fin n → Nat} {begun quieted : Fin n → Nat} {c d : Cpu Nat Nat E}
    (waits : Waits since begun quieted c) (next : d.next = c.next) (curr : d.curr = c.curr) (held : d.held = c.held)
    (batches : d.lBatch = c.lBatch ∧ d.cBatch = c.cBatch) (from_ : c.pc ≠ .complete) (to_ : d.pc ≠ .complete) :
    Waits since begun quieted d := by
  refine ⟨next ▸ waits.fresh, fun is => absurd is to_, ?_, held ▸ waits.expired, ?_⟩
  · rw [curr, batches.2]
    exact waits.later
  · rw [curr, batches.1, batches.2]
    exact fun some => ⟨(waits.target some).1, (waits.target some).2.1, fun _ => (waits.target some).2.2 from_⟩

variable [DecidableEq E]

theorem sum_waiting {t : State n Nat Nat E} {i : Fin n} {c : Cpu Nat Nat E} (cpus : t.cpu = Function.update s.cpu i c) (e : E) :
    ∑ j, (waiting (t.cpu j)).count e + (waiting (s.cpu i)).count e = ∑ j, (waiting (s.cpu j)).count e + (waiting c).count e := by
  have mine := Finset.add_sum_erase Finset.univ (fun j => (waiting (s.cpu j)).count e) (Finset.mem_univ i)
  have mine' := Finset.add_sum_erase Finset.univ (fun j => (waiting (t.cpu j)).count e) (Finset.mem_univ i)
  have others : ∑ j ∈ Finset.univ.erase i, (waiting (t.cpu j)).count e =
      ∑ j ∈ Finset.univ.erase i, (waiting (s.cpu j)).count e := by
    refine Finset.sum_congr rfl fun j member => ?_
    rw [cpus, Function.update_of_ne (Finset.ne_of_mem_erase member)]
  have here : t.cpu i = c := by
    rw [cpus, Function.update_self]
  rw [here] at mine'
  rw [← mine, ← mine', others]
  omega

/-- A step in which the callbacks of one CPU are moved about, and none is deferred or invoked -/
theorem Grace.goes (grace : Grace s) {i : Fin n} {c : Cpu Nat Nat E} {s' : State n Nat Nat E}
    (cpus : s'.cpu = Function.update s.cpu i c) (since : s'.since = s.since) (called : s'.called = s.called)
    (invoked : s'.invoked = s.invoked) (begun : ∀ k, s.begun k ≤ s'.begun k) (quieted : ∀ k, s.quieted k ≤ s'.quieted k)
    (same : ∀ e, (waiting c).count e = (waiting (s.cpu i)).count e) (waits : Waits s.since s'.begun s'.quieted c) : Grace s' := by
  refine ⟨fun j => ?_, fun e => ?_⟩
  · rw [cpus, since]
    by_cases here : j = i
    · subst here
      rw [Function.update_self]
      exact waits
    · rw [Function.update_of_ne here]
      exact (grace.waits j).mono begun quieted
  · have total := sum_waiting cpus e
    rw [same e] at total
    rw [called, invoked, grace.books e]
    omega

/-- A step outside of the lists -/
theorem Grace.keeps (grace : Grace s) {i : Fin n} {c : Cpu Nat Nat E} {s' : State n Nat Nat E}
    (cpus : s'.cpu = Function.update s.cpu i c) (since : s'.since = s.since) (called : s'.called = s.called)
    (invoked : s'.invoked = s.invoked) (begun : ∀ k, s.begun k ≤ s'.begun k) (quieted : ∀ k, s.quieted k ≤ s'.quieted k)
    (lists : c.next = (s.cpu i).next ∧ c.curr = (s.cpu i).curr ∧ c.held = (s.cpu i).held)
    (batches : c.lBatch = (s.cpu i).lBatch ∧ c.cBatch = (s.cpu i).cBatch)
    (from_ : (s.cpu i).pc ≠ .complete) (to_ : c.pc ≠ .complete) : Grace s' := by
  obtain ⟨next, curr, held⟩ := lists
  refine grace.goes cpus since called invoked begun quieted (fun e => ?_) ?_
  · unfold waiting
    rw [next, curr, held]
  · exact ((grace.waits i).goes next curr held batches from_ to_).mono begun quieted

theorem le_update_succ (f : Fin n → Nat) (i k : Fin n) : f k ≤ Function.update f i (f i + 1) k := by
  by_cases here : k = i
  · subst here
    rw [Function.update_self]
    exact Nat.le_succ _
  · rw [Function.update_of_ne here]

theorem update_succ_eq_count (f : E → Nat) (e d : E) : Function.update f e (f e + 1) d = f d + [e].count d := by
  by_cases here : d = e
  · subst here
    simp
  · rw [Function.update_of_ne here, List.count_singleton, if_neg (by simpa using fun is => here is.symm)]
    rfl

structure Sound (s : State n Nat Nat E) : Prop where
  protocol : Protocol s
  grace : Grace s

/-- A step that touches neither the lists nor what the batches depend on -/
theorem Sound.light (sound : Sound s) {i : Fin n} {c : Cpu Nat Nat E} (light : c.pc.light = true) (from_ : (s.cpu i).pc.decs = false)
    (idle : (s.cpu i).pc.restarts = false) (hazard : c.hazard = (s.cpu i).hazard) (batch : c.lBatch = (s.cpu i).lBatch)
    (same : ∀ e, (waiting c).count e = (waiting (s.cpu i)).count e) (waits : Waits s.since s.begun s.quieted c) :
    Sound (s.setCpu i c) := by
  obtain ⟨decs, -, -, restarts, -⟩ := Pc.light_iff.mp light
  exact ⟨sound.protocol.uncounted (sound.protocol.light light batch hazard from_) (restarts.trans idle.symm) rfl rfl rfl rfl rfl
      (sound.protocol.unbegun (decs.trans from_.symm) rfl rfl),
    sound.grace.goes rfl rfl rfl rfl (fun _ => le_rfl) (fun _ => le_rfl) same waits⟩

theorem Sound.call (sound : Sound s) {i : Fin n} {e : E} (allowed : s.Allowed (.call i e)) : Sound (s.call i e) := by
  obtain ⟨outside, new⟩ := allowed
  have light : (s.cpu i).pc.light = true := by
    cases is : (s.cpu i).pc <;> rw [is] at outside <;> first | rfl | cases outside
  have notComplete : (s.cpu i).pc ≠ .complete := fun is => by
    rw [is] at outside
    cases outside
  obtain ⟨decs, -, -, restarts, -⟩ := Pc.light_iff.mp light
  let c : Cpu Nat Nat E := { s.cpu i with next := (s.cpu i).next ++ [e] }
  refine ⟨sound.protocol.uncounted (c := c) (sound.protocol.light light rfl rfl decs) rfl rfl rfl rfl rfl rfl
    (sound.protocol.unbegun (c := c) rfl rfl rfl), fun j => ?_, fun d => ?_⟩
  · -- the other callbacks keep what was recorded for them
    have kept : ∀ j, ∀ d ∈ waiting (s.cpu j), Function.update s.since e s.begun d = s.since d := fun j d member => by
      have ne : d ≠ e := by
        rintro rfl
        exact new j member
      rw [Function.update_of_ne ne]
    have old : ∀ j, Waits (Function.update s.since e s.begun) s.begun s.quieted (s.cpu j) := fun j => by
      have waits := sound.grace.waits j
      refine ⟨fun d member => ?_, fun is d member => ?_, fun d member => ?_, fun d member => ?_, waits.target⟩
      · rw [kept j d (by simp [waiting, member])]
        exact waits.fresh d member
      · rw [kept j d (by simp [waiting, member])]
        exact waits.soon is d member
      · rw [kept j d (by simp [waiting, member])]
        exact waits.later d member
      · rw [kept j d (by simp [waiting, member])]
        exact waits.expired d member
    show Waits (Function.update s.since e s.begun) s.begun s.quieted (Function.update s.cpu i c j)
    by_cases here : j = i
    · subst here
      rw [Function.update_self]
      refine ⟨fun d member k => ?_, fun is => absurd is notComplete, (old j).later, (old j).expired, (old j).target⟩
      rcases List.mem_append.mp member with before | now
      · exact (old j).fresh d before k
      · rw [List.mem_singleton.mp now, Function.update_self]
    · rw [Function.update_of_ne here]
      exact old j
  · have total := sum_waiting (s := s) (t := s.call i e) (c := c) rfl d
    have books := sound.grace.books d
    have grown : (waiting c).count d = (waiting (s.cpu i)).count d + [e].count d := by
      show (((s.cpu i).next ++ [e]) ++ (s.cpu i).curr ++ (s.cpu i).held).count d = _
      simp only [waiting, List.count_append]
      omega
    have calls : (s.call i e).called d = s.called d + [e].count d := update_succ_eq_count s.called e d
    rw [calls, books, show (s.call i e).invoked = s.invoked from rfl]
    omega

/-- What is deferred before `update` looks at the batch has been deferred in that batch. -/
theorem Sound.soon (sound : Sound s) (i : Fin n) : ∀ e ∈ (s.cpu i).next, ∀ k, s.since e k ≤ s.state / 4 := fun e member k => by
  have fresh := (sound.grace.waits i).fresh e member k
  have begins := sound.protocol.begins k
  have paid := sound.protocol.paid k
  by_cases decs : (s.cpu k).pc.decs = true
  · rw [if_pos decs] at begins
    rw [if_pos (show s.Owes k from .inr (.inr decs))] at paid
    omega
  · rw [if_neg decs] at begins
    omega

theorem Sound.update (sound : Sound s) {i : Fin n} (out : (s.cpu i).pc = .out) : Sound (s.update unbounded i) := by
  have waits := sound.grace.waits i
  have held : ∀ p, (∀ rest, p ≠ .invoke rest) → ({ s.cpu i with pc := p } : Cpu Nat Nat E).held = (s.cpu i).held := fun p not => by
    unfold Cpu.held
    rw [out]
    cases p <;> first | rfl | exact absurd rfl (not _)
  have same : ∀ p, (∀ rest, p ≠ .invoke rest) → ∀ e,
      (waiting ({ s.cpu i with pc := p } : Cpu Nat Nat E)).count e = (waiting (s.cpu i)).count e := fun p not e => by
    unfold waiting
    rw [held p not]
  unfold State.update
  by_cases now : (s.cpu i).lBatch = unbounded.batch s.state
  · rw [if_neg (fun ne => ne now)]
    refine sound.light rfl (by rw [out]; rfl) (by rw [out]; rfl) rfl rfl (same .complete nofun)
      ⟨waits.fresh, fun _ e member k => ?_, waits.later, ?_, fun some => ?_⟩
    · exact (sound.soon i e member k).trans_eq now.symm
    · rw [held .complete nofun]
      exact waits.expired
    · exact ⟨(waits.target some).1, (waits.target some).2.1, nofun⟩
  · rw [if_pos now]
    have goes := waits.goes (d := { s.cpu i with pc := .batch }) rfl rfl (held .batch nofun) ⟨rfl, rfl⟩ (by rw [out]; nofun) nofun
    refine ⟨sound.protocol.uncounted (c := { s.cpu i with pc := .batch })
        ⟨sound.protocol.near i, fun is => ?_, fun _ => now, nofun, ?_, nofun, nofun, nofun, nofun⟩ (by rw [out]; rfl)
        rfl rfl rfl rfl rfl (sound.protocol.unbegun (by rw [out]; rfl) rfl rfl),
      sound.grace.goes rfl rfl rfl rfl (fun _ => le_rfl) (fun _ => le_rfl) (same .batch nofun) goes⟩
    · exact sound.protocol.current i (is.imp_right nofun)
    · unfold Owes
      rw [out]
      rfl

theorem Sound.quiet (sound : Sound s) {i : Fin n} (out : (s.cpu i).pc = .out) (hazard : (s.cpu i).hazard = true) :
    Sound (s.quiet i) := by
  have held : ({ s.cpu i with hazard := false, pc := .dec } : Cpu Nat Nat E).held = (s.cpu i).held := by
    unfold Cpu.held
    rw [out]
  have more := le_update_succ s.begun i
  refine ⟨sound.protocol.quiet hazard out, sound.grace.goes (c := { s.cpu i with hazard := false, pc := .dec }) rfl rfl rfl rfl more
    (fun _ => le_rfl) (fun e => ?_) ?_⟩
  · unfold waiting
    rw [held]
  · have goes := (sound.grace.waits i).goes (d := { s.cpu i with hazard := false, pc := .dec }) rfl rfl held ⟨rfl, rfl⟩
      (by rw [out]; nofun) nofun
    exact goes.mono more fun _ => le_rfl

omit [DecidableEq E] in
theorem leave_lists {c : Cpu Nat Nat E} (held : c.held = c.done) (f : Flag) :
    ((c.leave f).next = c.next ∧ (c.leave f).curr = c.curr ∧ (c.leave f).held = c.held) ∧
      (c.leave f).lBatch = c.lBatch ∧ (c.leave f).cBatch = c.cBatch ∧ (c.leave f).pc ≠ .complete := by
  refine ⟨⟨by cases f <;> rfl, by cases f <;> rfl, (Cpu.held_leave c f).trans held.symm⟩, Cpu.leave_lBatch c f,
    by cases f <;> rfl, fun is => ?_⟩
  cases f with
  | cmp => cases is
  | pnd =>
      unfold Cpu.leave Cpu.finish at is
      dsimp only at is
      split at is <;> cases is

theorem Sound.read (sound : Sound s) {i : Fin n} {f : Flag} (at_ : (s.cpu i).pc = .read f) :
    Sound (s.setCpu i (
      if unbounded.batch s.state ≠ (s.cpu i).lBatch then (s.cpu i).leave f
      else if unbounded.has f s.state then (s.cpu i).settle unbounded f s.state
      else { s.cpu i with pc := .swap f s.state })) := by
  have held : (s.cpu i).held = (s.cpu i).done := Cpu.held_eq (by rw [at_]; rintro _ ⟨⟩)
  have decs : (s.cpu i).pc.decs = false := by
    rw [at_]
    rfl
  have restarts : (s.cpu i).pc.restarts = false := by
    rw [at_]
    rfl
  have leaves : Sound (s.setCpu i ((s.cpu i).leave f)) := by
    obtain ⟨lists, lBatch, cBatch, to_⟩ := leave_lists held f
    have light := light_leave (s.cpu i) f
    obtain ⟨decs', -, -, restarts', -⟩ := Pc.light_iff.mp light
    exact ⟨sound.protocol.uncounted (sound.protocol.light light lBatch (Cpu.leave_hazard _ f) decs)
        (restarts'.trans restarts.symm) rfl rfl rfl rfl rfl (sound.protocol.unbegun (decs'.trans decs.symm) rfl rfl),
      sound.grace.keeps rfl rfl rfl rfl (fun _ => le_rfl) (fun _ => le_rfl) lists ⟨lBatch, cBatch⟩ (by rw [at_]; rintro ⟨⟩) to_⟩
  by_cases moved : unbounded.batch s.state ≠ (s.cpu i).lBatch
  · rw [if_pos moved]
    exact leaves
  · rw [if_neg moved]
    by_cases set : unbounded.has f s.state = true
    · rw [if_pos set]
      -- the bit was set by someone else, who has seen to the rest
      have one := unbounded_has.mp set
      rcases Cpu.settle_eq unbounded (s.cpu i) f s.state with ⟨is, -⟩ | ⟨-, is⟩
      · have two := unbounded_starts.mp is
        cases f <;> simp only [Flag.bit] at one two <;> omega
      · rw [is]
        exact leaves
    · rw [if_neg set]
      refine ⟨sound.protocol.uncounted (c := { s.cpu i with pc := .swap f s.state })
          ⟨sound.protocol.near i, fun is => ?_, by rintro ⟨⟩, by rintro ⟨⟩, ?_, ?_, by rintro ⟨⟩, by rintro _ _ ⟨⟩, ?_⟩ restarts.symm
          rfl rfl rfl rfl rfl (sound.protocol.unbegun (c := { s.cpu i with pc := .swap f s.state }) decs.symm rfl rfl),
        sound.grace.keeps rfl rfl rfl rfl (fun _ => le_rfl) (fun _ => le_rfl) ⟨rfl, rfl, held.symm⟩ ⟨rfl, rfl⟩ (by rw [at_]; rintro ⟨⟩) (by rintro ⟨⟩)⟩
      · exact sound.protocol.current i (is.imp_right (by rintro ⟨⟩))
      · unfold Owes
        rw [decs]
        rfl
      · intro is
        cases f with
        | cmp =>
            rw [at_]
            rfl
        | pnd => cases is
      · rintro g v is
        cases is
        exact ⟨fun one => set (unbounded_has.mpr one), of_not_not moved⟩

theorem Sound.batch (sound : Sound s) {i : Fin n} (at_ : (s.cpu i).pc = .batch) :
    Sound (s.setCpu i { s.cpu i with lBatch := unbounded.batch s.state, hazard := true, pc := .complete }) := by
  have waits := sound.grace.waits i
  have held : (s.cpu i).held = (s.cpu i).done := Cpu.held_eq (by rw [at_]; nofun)
  have behind := sound.protocol.behind i at_
  have next : (s.cpu i).lBatch + 1 = s.state / 4 := (sound.protocol.near i).resolve_left behind
  let c : Cpu Nat Nat E := { s.cpu i with lBatch := unbounded.batch s.state, hazard := true, pc := .complete }
  refine ⟨sound.protocol.uncounted (c := c) ⟨.inl rfl, fun _ => rfl, nofun, nofun, ?_, nofun, nofun, nofun, nofun⟩
      (by rw [at_]; rfl) rfl rfl rfl rfl rfl (sound.protocol.unbegun (by rw [at_]; rfl) rfl rfl),
    sound.grace.goes (c := c) rfl rfl rfl rfl (fun _ => le_rfl) (fun _ => le_rfl) (fun e => ?_)
      ⟨waits.fresh, fun _ => sound.soon i, waits.later, ?_, fun some => ⟨?_, ?_, nofun⟩⟩⟩
  · exact ⟨fun _ => .inl behind, fun _ => .inr (.inl rfl)⟩
  · show ((s.cpu i).next ++ (s.cpu i).curr ++ (s.cpu i).done).count e = _
    rw [← held]
    rfl
  · show ∀ e ∈ (s.cpu i).done, _
    rw [← held]
    exact waits.expired
  · have target := (waits.target some).1
    show (s.cpu i).cBatch ≤ s.state / 4 + 1
    omega
  · have target := (waits.target some).2.2 (by rw [at_]; nofun)
    show s.state / 4 ≤ (s.cpu i).cBatch + 1
    omega

omit [DecidableEq E] in
/-- When a batch is complete every CPU has been quiet in it. -/
theorem Protocol.complete (protocol : Protocol s) {b : Nat} (complete : unbounded.complete s.state b = true) (k : Fin n) :
    b ≤ s.quieted k := by
  have paid := protocol.paid k
  have more : s.state - (if s.state / 2 % 2 = 1 then 2 else 0) > 4 * b := of_decide_eq_true complete
  by_cases ended : s.state % 2 = 1
  · rw [if_neg (protocol.ended ended k).1] at paid
    split at more <;> omega
  · split at paid <;> split at more <;> omega

theorem Sound.advance (sound : Sound s) {i : Fin n} (at_ : (s.cpu i).pc = .complete) :
    ∃ c, (s.cpu i).advance unbounded s.state = some c ∧ Sound (s.setCpu i c) := by
  have waits := sound.grace.waits i
  have held : (s.cpu i).held = (s.cpu i).done := Cpu.held_eq (by rw [at_]; nofun)
  obtain ⟨done, curr, c, moved, shape, is⟩ := (s.cpu i).advance_eq unbounded s.state
  have soon := waits.soon at_
  refine ⟨c, is, ?_⟩
  have expired : ∀ e ∈ done, ∀ k, s.since e k < s.quieted k := by
    have before : ∀ e ∈ (s.cpu i).done, ∀ k, s.since e k < s.quieted k := by
      rw [← held]
      exact waits.expired
    rcases moved with ⟨-, complete, rfl, -⟩ | ⟨-, rfl, -⟩
    · intro e member k
      rcases List.mem_append.mp member with old | new
      · exact before e old k
      · exact (waits.later e new k).trans_le (sound.protocol.complete complete k)
    · exact before
  have kept : ∀ e, done.count e + curr.count e = (s.cpu i).done.count e + (s.cpu i).curr.count e := fun e => by
    rcases moved with ⟨-, -, rfl, rfl⟩ | ⟨-, rfl, rfl⟩
    · rw [List.count_append]
      rfl
    · rfl
  rcases shape with ⟨rfl, -, rfl⟩ | ⟨-, rfl⟩
  · refine sound.light rfl (by rw [at_]; rfl) (by rw [at_]; rfl) rfl rfl (fun e => ?_)
      ⟨nofun, nofun, fun e member k => ?_, expired, fun _ => ⟨le_rfl, ?_, fun _ => ?_⟩⟩
    · show ([] ++ (s.cpu i).next ++ done).count e = ((s.cpu i).next ++ (s.cpu i).curr ++ (s.cpu i).held).count e
      have same := kept e
      rw [held]
      simp only [List.count_append, List.count_nil] at same ⊢
      omega
    · exact Nat.lt_succ_of_le (soon e member k)
    · exact Nat.le_succ_of_le (Nat.le_succ _)
    · exact Nat.le_succ _
  · have light := light_finish { s.cpu i with done, curr }
    have notComplete : ({ s.cpu i with done, curr } : Cpu Nat Nat E).finish.pc ≠ .complete := fun is => by
      unfold Cpu.finish at is
      dsimp only at is
      split at is <;> cases is
    refine sound.light light (by rw [at_]; rfl) (by rw [at_]; rfl) rfl rfl (fun e => ?_)
      ⟨waits.fresh, fun is => absurd is notComplete, ?_, ?_, fun some => ?_⟩
    · show ((s.cpu i).next ++ curr ++ Cpu.held _).count e = ((s.cpu i).next ++ (s.cpu i).curr ++ (s.cpu i).held).count e
      have same := kept e
      rw [held, Cpu.held_finish]
      simp only [List.count_append] at same ⊢
      omega
    · rcases moved with ⟨-, -, -, rfl⟩ | ⟨-, -, rfl⟩
      · nofun
      · exact waits.later
    · rw [Cpu.held_finish]
      exact expired
    · rcases moved with ⟨-, -, -, rfl⟩ | ⟨why, -, rfl⟩
      · exact absurd rfl some
      · have not : ¬ s.state - (if s.state / 2 % 2 = 1 then 2 else 0) > 4 * (s.cpu i).cBatch :=
          of_decide_eq_false (why.resolve_left some)
        have near := sound.protocol.near i
        obtain ⟨above, below, -⟩ := waits.target some
        refine ⟨above, below, fun _ => ?_⟩
        show (s.cpu i).lBatch ≤ (s.cpu i).cBatch
        split at not <;> omega

theorem Sound.returns (sound : Sound s) {i : Fin n} (at_ : (s.cpu i).pc = .invoke []) :
    Sound (s.setCpu i { s.cpu i with done := [], pc := .out }) := by
  have held : (s.cpu i).held = [] := by
    unfold Cpu.held
    rw [at_]
  have waits := sound.grace.waits i
  refine sound.light rfl (by rw [at_]; rfl) (by rw [at_]; rfl) rfl rfl (fun e => ?_)
    (waits.goes rfl rfl held.symm ⟨rfl, rfl⟩ (by rw [at_]; nofun) nofun)
  unfold waiting
  rw [held]
  rfl

theorem Sound.invoke (sound : Sound s) {i : Fin n} {e : E} {rest : List E} (at_ : (s.cpu i).pc = .invoke (e :: rest)) :
    Sound { s.setCpu i { s.cpu i with pc := .invoke rest } with
      invoked := Function.update s.invoked e (s.invoked e + 1) } := by
  have held : (s.cpu i).held = e :: rest := by
    unfold Cpu.held
    rw [at_]
  have waits := sound.grace.waits i
  let c : Cpu Nat Nat E := { s.cpu i with pc := .invoke rest }
  have rest_ : c.held = rest := rfl
  refine ⟨sound.protocol.uncounted (c := c) (sound.protocol.light rfl rfl rfl (by rw [at_]; rfl)) (by rw [at_]; rfl)
    rfl rfl rfl rfl rfl (sound.protocol.unbegun (c := c) (by rw [at_]; rfl) rfl rfl), fun j => ?_, fun d => ?_⟩
  · show Waits s.since s.begun s.quieted (Function.update s.cpu i c j)
    by_cases here : j = i
    · subst here
      rw [Function.update_self]
      refine ⟨waits.fresh, nofun, waits.later, fun d member => ?_, fun some => ?_⟩
      · refine waits.expired d ?_
        rw [held]
        exact List.mem_cons_of_mem e member
      · obtain ⟨above, below, closer⟩ := waits.target some
        exact ⟨above, below, fun _ => closer (by rw [at_]; nofun)⟩
    · rw [Function.update_of_ne here]
      exact sound.grace.waits j
  · let t : State n Nat Nat E := { s.setCpu i c with invoked := Function.update s.invoked e (s.invoked e + 1) }
    have total := sum_waiting (s := s) (t := t) (c := c) rfl d
    have books := sound.grace.books d
    have fewer : (waiting (s.cpu i)).count d = (waiting c).count d + [e].count d := by
      unfold waiting
      rw [held, rest_, ← List.singleton_append]
      simp only [List.count_append]
      have next : c.next = (s.cpu i).next := rfl
      have curr : c.curr = (s.cpu i).curr := rfl
      rw [next, curr]
      omega
    have invokes : t.invoked d = s.invoked d + [e].count d := update_succ_eq_count s.invoked e d
    show s.called d = t.invoked d + ∑ j, (waiting (t.cpu j)).count d
    rw [invokes, books]
    omega

theorem Sound.step (sound : Sound s) {i : Fin n} : ∃ s', s.step unbounded i = some s' ∧ Sound s' := by
  unfold State.step
  dsimp only
  cases at_ : (s.cpu i).pc with
  | out => exact ⟨s, rfl, sound⟩
  | dec =>
      have held : (s.cpu i).held = (s.cpu i).done := Cpu.held_eq (by rw [at_]; nofun)
      refine ⟨_, rfl, sound.protocol.dec at_, sound.grace.keeps rfl rfl rfl rfl (fun _ => le_rfl) (le_update_succ s.quieted i)
        ⟨rfl, rfl, ?_⟩ ⟨rfl, rfl⟩ (by rw [at_]; nofun) ?_⟩
      · rw [held]
        exact Cpu.held_eq (by dsimp only; split <;> nofun)
      · dsimp only
        split <;> nofun
  | read f => exact ⟨_, rfl, sound.read at_⟩
  | swap f v =>
      have held : (s.cpu i).held = (s.cpu i).done := Cpu.held_eq (by rw [at_]; nofun)
      refine ⟨_, rfl, ?_⟩
      by_cases same : s.state = v
      · rw [if_pos same]
        subst same
        refine ⟨sound.protocol.swap at_, ?_⟩
        rcases Cpu.settle_eq unbounded (s.cpu i) f s.state with ⟨-, is⟩ | ⟨-, is⟩
        · rw [is]
          exact sound.grace.keeps rfl rfl rfl rfl (fun _ => le_rfl) (fun _ => le_rfl) ⟨rfl, rfl, held.symm⟩ ⟨rfl, rfl⟩
            (by rw [at_]; nofun) nofun
        · rw [is]
          obtain ⟨lists, lBatch, cBatch, to_⟩ := leave_lists held f
          exact sound.grace.keeps rfl rfl rfl rfl (fun _ => le_rfl) (fun _ => le_rfl) lists ⟨lBatch, cBatch⟩ (by rw [at_]; nofun) to_
      · rw [if_neg same]
        refine ⟨sound.protocol.uncounted (c := { s.cpu i with pc := .read f })
            ⟨sound.protocol.near i, fun is => ?_, nofun, nofun, ?_, ?_, nofun, nofun, nofun⟩ (by rw [at_]; rfl)
            rfl rfl rfl rfl rfl (sound.protocol.unbegun (by rw [at_]; rfl) rfl rfl),
          sound.grace.keeps rfl rfl rfl rfl (fun _ => le_rfl) (fun _ => le_rfl) ⟨rfl, rfl, held.symm⟩ ⟨rfl, rfl⟩ (by rw [at_]; nofun) nofun⟩
        · exact sound.protocol.current i (is.imp_right nofun)
        · unfold Owes
          rw [at_]
          rfl
        · intro is
          rw [at_]
          cases f with
          | cmp => rfl
          | pnd => cases is
  | reset f =>
      have held : (s.cpu i).held = (s.cpu i).done := Cpu.held_eq (by rw [at_]; nofun)
      exact ⟨_, rfl, sound.protocol.reset at_, sound.grace.keeps rfl rfl rfl rfl (fun _ => le_rfl) (fun _ => le_rfl)
        ⟨rfl, rfl, held.symm⟩ ⟨rfl, rfl⟩ (by rw [at_]; nofun) nofun⟩
  | fetch f =>
      have held : (s.cpu i).held = (s.cpu i).done := Cpu.held_eq (by rw [at_]; nofun)
      refine ⟨_, rfl, sound.protocol.uncounted (c := { s.cpu i with pc := .store f s.state })
            ⟨sound.protocol.near i, fun is => ?_, nofun, nofun, ?_, nofun, ?_, ?_, nofun⟩ (by rw [at_]; rfl)
            rfl rfl rfl rfl rfl (sound.protocol.unbegun (by rw [at_]; rfl) rfl rfl),
          sound.grace.keeps rfl rfl rfl rfl (fun _ => le_rfl) (fun _ => le_rfl) ⟨rfl, rfl, held.symm⟩ ⟨rfl, rfl⟩ (by rw [at_]; nofun) nofun⟩
      · exact sound.protocol.current i (is.imp_right nofun)
      · unfold Owes
        rw [at_]
        rfl
      · rw [at_]
        exact fun _ => rfl
      · rintro g v ⟨⟩
        rfl
  | store f v =>
      have held : (s.cpu i).held = (s.cpu i).done := Cpu.held_eq (by rw [at_]; nofun)
      obtain rfl := sound.protocol.stores i f v at_
      obtain ⟨lists, lBatch, cBatch, to_⟩ := leave_lists held f
      exact ⟨_, rfl, sound.protocol.store at_, sound.grace.keeps rfl rfl rfl rfl (fun _ => le_rfl) (fun _ => le_rfl) lists
        ⟨lBatch, cBatch⟩ (by rw [at_]; nofun) to_⟩
  | batch => exact ⟨_, rfl, sound.batch at_⟩
  | complete =>
      obtain ⟨c, is, sound'⟩ := sound.advance at_
      exact ⟨_, by rw [is]; rfl, sound'⟩
  | invoke rest =>
      cases rest with
      | nil => exact ⟨_, rfl, sound.returns at_⟩
      | cons e rest => exact ⟨_, rfl, sound.invoke at_⟩

/-- **Every access keeps the invariant.** -/
theorem act_sound (sound : Sound s) {a : Event n E} (allowed : s.Allowed a) : ∃ s', act unbounded a s = some s' ∧ Sound s' := by
  cases a with
  | call i e => exact ⟨_, rfl, sound.call allowed⟩
  | update i => exact ⟨_, rfl, sound.update allowed⟩
  | quiet i => exact ⟨_, rfl, sound.quiet allowed.1 allowed.2⟩
  | step i => exact sound.step

/-- What is guaranteed in every state, whatever the words look like -/
structure Safe {W M : Type} (s : State n W M E) : Prop where
  /-- Every deferred callback has been invoked or is in one of the lists, once for every call. -/
  once : ∀ e, s.called e = s.invoked e + ∑ i, (waiting (s.cpu i)).count e
  /-- Of a callback that is invoked next: every CPU has begun and finished `quiet` since the call. -/
  grace : ∀ i e rest, (s.cpu i).pc = .invoke (e :: rest) → ∀ k, s.since e k < s.quieted k
  count : 0 ≤ s.count
  /-- A CPU that decrements `count` does so for the first time in the current batch. -/
  owed : ∀ i, (s.cpu i).pc = .dec → 0 < s.count ∧ s.quieted i + 1 = s.started.length
  /-- When a batch is started, `count` is the number of CPUs, all of which have been quiet
  once in every batch before. -/
  starts : ∀ i f v, (s.cpu i).pc = .store f v → v = s.state ∧ s.count = n ∧ ∀ k, s.quieted k = s.started.length
  alone : ∀ i j, (s.cpu i).pc.starts = true → (s.cpu j).pc.starts = true → i = j

theorem Sound.safe (sound : Sound s) : Safe s := by
  have protocol := sound.protocol
  refine ⟨sound.grace.books, fun i e rest at_ => ?_, ?_, fun i at_ => ?_, fun i f v at_ => ?_, fun i j is also => ?_⟩
  · have held : (s.cpu i).held = e :: rest := by
      unfold Cpu.held
      rw [at_]
    exact (sound.grace.waits i).expired e (held ▸ List.mem_cons_self)
  · by_cases restarts : ∃ i, (s.cpu i).pc.restarts = true
    · obtain ⟨i, is⟩ := restarts
      rw [protocol.recounts i is]
      exact Int.natCast_nonneg n
    · rw [protocol.counts fun i => by simpa using fun is => restarts ⟨i, is⟩]
      exact Int.natCast_nonneg _
  · have owes : s.Owes i := .inr (.inr (by rw [at_]; rfl))
    have paid := protocol.paid i
    rw [if_pos owes, protocol.log] at paid
    obtain ⟨-, -, -, count⟩ := protocol.open_ owes
    have some : 0 < (Finset.univ.filter fun i => s.Owes i).card := Finset.card_pos.mpr ⟨i, by simpa using owes⟩
    exact ⟨by omega, paid⟩
  · have ended : s.state % 2 = 1 := by
      have both := (protocol.starting i (by rw [at_]; rfl)).1
      omega
    refine ⟨protocol.stores i f v at_, protocol.recounts i (by rw [at_]; rfl), fun k => ?_⟩
    have paid := protocol.paid k
    rw [if_neg (protocol.ended ended k).1, protocol.log] at paid
    exact paid
  · exact ((protocol.starting i is).2 j also).symm

theorem start_sound : Sound (start 1 0 : State n Nat Nat E) := by
  refine ⟨start_protocol, fun i => ⟨nofun, nofun, nofun, nofun, fun some => absurd rfl some⟩, fun e => ?_⟩
  simp [start, waiting, Cpu.held]

end State

end Nova.Kernel.Rcu
