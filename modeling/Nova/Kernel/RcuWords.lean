/-
# Nova.Kernel.RcuWords — the batches in 64 bits

The batch number is stored in the upper 62 bits of `state` and wraps around.  The code
compares batch numbers for equality and, in `complete`, by the sign of a difference.  In
every state of a run of the machine with unbounded words the numbers that are compared are
at most two batches apart (`Protocol.near`, `Waits.target`), so the comparisons come out the
same after the wrap-around: `act_wrap` says that the two machines run in step.

* `mword`: the arithmetic of the code;
* `rcu_grace`: the guarantees of the deferred callbacks, for the machine of the code.
-/
import Nova.Kernel.RcuGrace

namespace Nova.Kernel.Rcu

open Nova.Theory.Runs

set_option autoImplicit false

def Flag.word : Flag → BitVec 64
  | .cmp => 1#64
  | .pnd => 2#64

/-- The arithmetic of the code on `mword` -/
def mword : Words (BitVec 64) (BitVec 64) where
  batch v := v >>> 2
  has f v := v &&& f.word ≠ 0#64
  set f v := v ||| f.word
  starts f v := (v ^^^ ~~~ f.word) &&& (1#64 ||| 2#64) = 0#64
  succ v := v + 1#64
  next l := l + 1#64
  complete v b := BitVec.slt 0#64 ((v &&& ~~~ 2#64) - (b <<< 2))

/-! ## Comparisons -/

/-- A word, a batch number and the batch after it in 64 bits -/
def word (v : Nat) : BitVec 64 := BitVec.ofNat 64 v

def number (l : Nat) : BitVec 64 := BitVec.ofNat 64 (4 * l) >>> 2

def goal : Nat → BitVec 64
  | 0 => 0#64
  | l + 1 => number l + 1#64

theorem toNat_word (v : Nat) : (word v).toNat = v % 2 ^ 64 := BitVec.toNat_ofNat v 64

theorem toNat_number (l : Nat) : (number l).toNat = l % 2 ^ 62 := by
  unfold number
  rw [BitVec.toNat_ushiftRight, BitVec.toNat_ofNat, Nat.shiftRight_eq_div_pow]
  omega

theorem batch_word (v : Nat) : mword.batch (word v) = number (v / 4) := by
  apply BitVec.eq_of_toNat_eq
  rw [toNat_number]
  show (word v >>> 2).toNat = _
  rw [BitVec.toNat_ushiftRight, toNat_word, Nat.shiftRight_eq_div_pow]
  omega

theorem number_inj {l b : Nat} (near : l = b ∨ l + 1 = b) : number l = number b ↔ l = b := by
  constructor
  · intro same
    have nat := congrArg BitVec.toNat same
    rw [toNat_number, toNat_number] at nat
    omega
  · rintro rfl
    rfl

theorem word_inj {v w : Nat} (near : v < w + 16) (near' : w < v + 16) : word v = word w ↔ v = w := by
  constructor
  · intro same
    have nat := congrArg BitVec.toNat same
    rw [toNat_word, toNat_word] at nat
    omega
  · rintro rfl
    rfl

theorem toNat_and_flag (v : Nat) (f : Flag) : (word v &&& f.word).toNat = v / f.bit % 2 * f.bit := by
  rw [BitVec.toNat_and, toNat_word]
  cases f with
  | cmp =>
      show (v % 2 ^ 64) &&& 1 = _
      rw [Nat.and_one_is_mod]
      simp only [Flag.bit]
      omega
  | pnd =>
      show (v % 2 ^ 64) &&& 2 = _
      have half := @Nat.and_div_two_pow (v % 2 ^ 64) 2 1
      have even := @Nat.and_mod_two_pow (v % 2 ^ 64) 2 1
      rw [show 2 / 2 ^ 1 = 1 from rfl, Nat.and_one_is_mod] at half
      rw [show 2 % 2 ^ 1 = 0 from rfl, Nat.and_zero] at even
      simp only [Flag.bit]
      omega

theorem has_word (v : Nat) (f : Flag) : mword.has f (word v) = unbounded.has f v := by
  show decide (word v &&& f.word ≠ 0#64) = decide (v / f.bit % 2 = 1)
  rw [decide_eq_decide, Ne, ← BitVec.toNat_inj, toNat_and_flag]
  cases f <;> simp only [Flag.bit, BitVec.toNat_ofNat] <;> omega

theorem or_eq_left {x y : BitVec 64} (inside : x &&& y = y) : x ||| y = x := by
  ext i small
  have bit := congrArg (fun z => z[i]) inside
  rw [BitVec.getElem_and] at bit
  rw [BitVec.getElem_or]
  revert bit
  cases x[i] <;> cases y[i] <;> decide

theorem and_not_add (x y : BitVec 64) : (x &&& ~~~ y) + (x &&& y) = x := by
  rw [BitVec.add_eq_or_of_and_eq_zero]
  · ext i small
    simp only [BitVec.getElem_and, BitVec.getElem_or, BitVec.getElem_not]
    cases x[i] <;> cases y[i] <;> rfl
  · ext i small
    simp only [BitVec.getElem_and, BitVec.getElem_not, BitVec.getElem_zero]
    cases x[i] <;> cases y[i] <;> rfl

theorem set_word (v : Nat) (f : Flag) : mword.set f (word v) = word (unbounded.set f v) := by
  show word v ||| f.word = word (if v / f.bit % 2 = 1 then v else v + f.bit)
  have value : word f.bit = f.word := by cases f <;> rfl
  by_cases one : v / f.bit % 2 = 1
  · rw [if_pos one]
    refine or_eq_left ?_
    apply BitVec.eq_of_toNat_eq
    rw [toNat_and_flag, one, Nat.one_mul]
    cases f <;> rfl
  · rw [if_neg one]
    have zero : word v &&& f.word = 0#64 := by
      apply BitVec.eq_of_toNat_eq
      rw [toNat_and_flag]
      have : v / f.bit % 2 = 0 := by omega
      rw [this]
      simp
    rw [← BitVec.add_eq_or_of_and_eq_zero _ _ zero, ← value]
    exact (BitVec.ofNat_add v f.bit).symm

theorem starts_word (v : Nat) (f : Flag) : mword.starts f (word v) = unbounded.starts f v := by
  show decide ((word v ^^^ ~~~ f.word) &&& (1#64 ||| 2#64) = 0#64) = decide (v % 4 = 3 - f.bit)
  rw [decide_eq_decide, ← BitVec.toNat_inj, BitVec.toNat_and]
  rw [show (1#64 ||| 2#64).toNat = 2 ^ 2 - 1 from rfl, Nat.and_two_pow_sub_one_eq_mod, BitVec.toNat_xor, Nat.xor_mod_two_pow,
    toNat_word]
  have low : v % 2 ^ 64 % 2 ^ 2 = v % 4 := by omega
  rw [low]
  have table : ∀ r < 4, ∀ f : Flag, r ^^^ (~~~ f.word).toNat % 2 ^ 2 = (0#64).toNat ↔ r = 3 - f.bit := by
    intro r small f
    cases f <;> revert r <;> decide
  exact table (v % 4) (Nat.mod_lt _ (by omega)) f

theorem goal_shift (c : Nat) : (goal c <<< 2).toNat = 4 * c % 2 ^ 64 := by
  rw [BitVec.toNat_shiftLeft, Nat.shiftLeft_eq]
  cases c with
  | zero => rfl
  | succ l =>
      rw [goal, BitVec.toNat_add, toNat_number]
      simp only [BitVec.toNat_ofNat]
      omega

theorem complete_word (v c : Nat) (near : v / 4 ≤ c + 2) (near' : c ≤ v / 4 + 2) :
    mword.complete (word v) (goal c) = unbounded.complete v c := by
  show BitVec.slt 0#64 ((word v &&& ~~~ 2#64) - (goal c <<< 2)) = decide (v - (if v / 2 % 2 = 1 then 2 else 0) > 4 * c)
  have pnd : (word v &&& 2#64).toNat = v / 2 % 2 * 2 := toNat_and_flag v .pnd
  have mask : (word v &&& ~~~ 2#64).toNat = (v - v / 2 % 2 * 2) % 2 ^ 64 := by
    have sum := congrArg BitVec.toNat (and_not_add (word v) 2#64)
    rw [BitVec.toNat_add, pnd, toNat_word] at sum
    have small := (word v &&& ~~~ 2#64).isLt
    omega
  have difference : ((word v &&& ~~~ 2#64) - (goal c <<< 2)).toNat = (2 ^ 64 - 4 * c % 2 ^ 64 + (v - v / 2 % 2 * 2) % 2 ^ 64) % 2 ^ 64 := by
    rw [BitVec.toNat_sub, mask, goal_shift]
  rw [BitVec.slt_eq_decide, decide_eq_decide, BitVec.toInt_eq_toNat_cond, BitVec.toInt_eq_toNat_cond, difference]
  have two : (if v / 2 % 2 = 1 then 2 else 0) = v / 2 % 2 * 2 := by
    split <;> omega
  rw [two]
  -- the distance is small, in either direction
  have above : v - v / 2 % 2 * 2 ≤ 4 * c + 11 := by omega
  have below : 4 * c ≤ v - v / 2 % 2 * 2 + 10 := by omega
  generalize v - v / 2 % 2 * 2 = u at above below
  rw [show (0#64).toNat = 0 from rfl]
  split <;> split <;> omega

/-! ## The two machines -/

variable {n : Nat} {E : Type}

def Pc.wrap : Pc Nat E → Pc (BitVec 64) E
  | .out => .out
  | .dec => .dec
  | .read f => .read f
  | .swap f v => .swap f (word v)
  | .reset f => .reset f
  | .fetch f => .fetch f
  | .store f v => .store f (word v)
  | .batch => .batch
  | .complete => .complete
  | .invoke rest => .invoke rest

theorem Pc.wrap_out {p : Pc Nat E} : p.wrap = .out ↔ p = .out := by
  cases p <;> simp [wrap]

theorem Pc.wrap_invoke {p : Pc Nat E} {rest : List E} : p.wrap = .invoke rest ↔ p = .invoke rest := by
  cases p <;> simp [wrap]

theorem Pc.wrap_dec {p : Pc Nat E} : p.wrap = .dec ↔ p = .dec := by
  cases p <;> simp [wrap]

theorem Pc.wrap_store {p : Pc Nat E} {f : Flag} {v : BitVec 64} (is : p.wrap = .store f v) :
    ∃ w, p = .store f w ∧ word w = v := by
  cases p <;> cases is
  exact ⟨_, rfl, rfl⟩

theorem Pc.calls_wrap (p : Pc Nat E) : p.wrap.calls = p.calls := by
  cases p <;> rfl

theorem Pc.starts_wrap (p : Pc Nat E) : p.wrap.starts = p.starts := by
  cases p <;> rfl

def Cpu.wrap (c : Cpu Nat Nat E) : Cpu (BitVec 64) (BitVec 64) E :=
  ⟨number c.lBatch, goal c.cBatch, c.next, c.curr, c.done, c.hazard, c.pc.wrap⟩

namespace Cpu

theorem wrap_finish (c : Cpu Nat Nat E) : c.finish.wrap = c.wrap.finish := by
  unfold finish wrap
  dsimp only
  split <;> rfl

theorem wrap_leave (c : Cpu Nat Nat E) (f : Flag) : (c.leave f).wrap = c.wrap.leave f := by
  cases f with
  | cmp => rfl
  | pnd => exact wrap_finish c

theorem wrap_settle (c : Cpu Nat Nat E) (f : Flag) (v : Nat) :
    (c.settle unbounded f v).wrap = c.wrap.settle mword f (word v) := by
  unfold settle
  rw [starts_word]
  split
  · rfl
  · exact wrap_leave c f

theorem held_wrap (c : Cpu Nat Nat E) : c.wrap.held = c.held := by
  unfold held wrap
  dsimp only
  cases c.pc <;> rfl

theorem wrap_advance (c : Cpu Nat Nat E) (v : Nat) (same : c.curr ≠ [] → mword.complete (word v) (goal c.cBatch) = unbounded.complete v c.cBatch) :
    c.wrap.advance mword (word v) = (c.advance unbounded v).map wrap := by
  obtain ⟨lBatch, cBatch, next, curr, done, hazard, pc⟩ := c
  have finished : ∀ d : Cpu Nat Nat E, some d.wrap.finish = (some d.finish).map wrap := fun d => by
    rw [Option.map_some, wrap_finish]
  cases curr with
  | nil =>
      cases next with
      | nil => exact finished _
      | cons e rest => rfl
  | cons e rest =>
      have test := same nofun
      dsimp only at test
      unfold advance
      simp only [wrap, test]
      cases unbounded.complete v cBatch with
      | false => exact finished ⟨lBatch, cBatch, next, e :: rest, done, hazard, pc⟩
      | true =>
          cases next with
          | nil => exact finished ⟨lBatch, cBatch, [], [], done ++ e :: rest, hazard, pc⟩
          | cons e rest => rfl

end Cpu

namespace State

def wrap (s : State n Nat Nat E) : State n (BitVec 64) (BitVec 64) E :=
  { s with state := word s.state, cpu := fun i => (s.cpu i).wrap }

theorem wrap_update (s : State n Nat Nat E) (i : Fin n) (c : Cpu Nat Nat E) :
    Function.update s.wrap.cpu i c.wrap = fun j => (Function.update s.cpu i c j).wrap := by
  funext j
  by_cases here : j = i
  · subst here
    rw [Function.update_self, Function.update_self]
  · rw [Function.update_of_ne here, Function.update_of_ne here]
    rfl

/-- A step of one CPU in both machines -/
theorem eq_wrap {s t : State n Nat Nat E} {u : State n (BitVec 64) (BitVec 64) E} {i : Fin n} {c : Cpu Nat Nat E}
    (cpus : u.cpu = Function.update s.wrap.cpu i c.wrap) (cpus' : t.cpu = Function.update s.cpu i c)
    (state : u.state = word t.state) (same : u.count = t.count ∧ u.begun = t.begun ∧ u.quieted = t.quieted ∧
      u.called = t.called ∧ u.invoked = t.invoked ∧ u.since = t.since ∧ u.started = t.started) : some u = some t.wrap := by
  obtain ⟨count, begun, quieted, called, invoked, since, started⟩ := same
  rw [wrap_update, ← cpus'] at cpus
  unfold wrap
  rw [← state, ← cpus, ← count, ← begun, ← quieted, ← called, ← invoked, ← since, ← started]

variable [DecidableEq E] {s : State n Nat Nat E}

omit [DecidableEq E] in
theorem waiting_wrap (c : Cpu Nat Nat E) : waiting c.wrap = waiting c := by
  unfold waiting
  rw [Cpu.held_wrap]
  rfl

omit [DecidableEq E] in
theorem allowed_wrap (s : State n Nat Nat E) (a : Event n E) : s.wrap.Allowed a ↔ s.Allowed a := by
  cases a with
  | call i e =>
      refine and_congr ?_ (forall_congr' fun j => ?_)
      · rw [show (s.wrap.cpu i).pc = (s.cpu i).pc.wrap from rfl, Pc.calls_wrap]
      · rw [show s.wrap.cpu j = (s.cpu j).wrap from rfl, waiting_wrap]
  | update i => exact Pc.wrap_out
  | quiet i => exact and_congr_left' Pc.wrap_out
  | step i => exact not_congr Pc.wrap_out

omit [DecidableEq E] in
/-- What a CPU has seen and the current batch are compared as if there were no wrap-around. -/
theorem batch_wrap (protocol : Protocol s) (i : Fin n) :
    mword.batch s.wrap.state = (s.wrap.cpu i).lBatch ↔ unbounded.batch s.state = (s.cpu i).lBatch := by
  show mword.batch (word s.state) = number (s.cpu i).lBatch ↔ s.state / 4 = (s.cpu i).lBatch
  rw [batch_word, eq_comm, number_inj (protocol.near i), eq_comm]

theorem step_wrap (sound : Sound s) (i : Fin n) : s.wrap.step mword i = (s.step unbounded i).map wrap := by
  have near := sound.protocol.near i
  have pc : (s.wrap.cpu i).pc = (s.cpu i).pc.wrap := rfl
  unfold step
  dsimp only
  rw [pc]
  cases at_ : (s.cpu i).pc with
  | out => rfl
  | dec =>
      refine eq_wrap (s := s) (i := i) (c := { s.cpu i with pc := if s.count - 1 = 0 then .read .cmp else .out }) ?_ rfl rfl
        ⟨rfl, rfl, rfl, rfl, rfl, rfl, rfl⟩
      refine congrArg (Function.update s.wrap.cpu i) ?_
      unfold Cpu.wrap
      dsimp only
      rw [apply_ite Pc.wrap]
      rfl
  | read f =>
      refine eq_wrap (s := s) (i := i) (c := if unbounded.batch s.state ≠ (s.cpu i).lBatch then (s.cpu i).leave f
        else if unbounded.has f s.state then (s.cpu i).settle unbounded f s.state
        else { s.cpu i with pc := .swap f s.state }) ?_ rfl rfl ⟨rfl, rfl, rfl, rfl, rfl, rfl, rfl⟩
      refine congrArg (Function.update s.wrap.cpu i) ?_
      by_cases moved : unbounded.batch s.state ≠ (s.cpu i).lBatch
      · rw [if_pos moved, if_pos fun is => moved ((batch_wrap sound.protocol i).mp is)]
        exact (Cpu.wrap_leave (s.cpu i) f).symm
      · rw [if_neg moved, if_neg fun other => other ((batch_wrap sound.protocol i).mpr (of_not_not moved)),
          show s.wrap.state = word s.state from rfl, has_word]
        split
        · exact (Cpu.wrap_settle (s.cpu i) f s.state).symm
        · rfl
  | swap f v =>
      have seen := (sound.protocol.swaps i f v at_).2
      have compare : s.wrap.state = word v ↔ s.state = v := word_inj (by omega) (by omega)
      by_cases same : s.state = v
      · dsimp only [Pc.wrap]
        rw [if_pos same, if_pos (compare.mpr same)]
        refine eq_wrap (s := s) (i := i) (c := (s.cpu i).settle unbounded f v) ?_ rfl (set_word v f)
          ⟨rfl, rfl, rfl, rfl, rfl, rfl, rfl⟩
        exact congrArg (Function.update s.wrap.cpu i) (Cpu.wrap_settle (s.cpu i) f v).symm
      · dsimp only [Pc.wrap]
        rw [if_neg same, if_neg fun is => same (compare.mp is)]
        exact eq_wrap (s := s) (i := i) (c := { s.cpu i with pc := .read f }) rfl rfl rfl ⟨rfl, rfl, rfl, rfl, rfl, rfl, rfl⟩
  | reset f => exact eq_wrap (s := s) (i := i) (c := { s.cpu i with pc := .fetch f }) rfl rfl rfl ⟨rfl, rfl, rfl, rfl, rfl, rfl, rfl⟩
  | fetch f =>
      exact eq_wrap (s := s) (i := i) (c := { s.cpu i with pc := .store f s.state }) rfl rfl rfl ⟨rfl, rfl, rfl, rfl, rfl, rfl, rfl⟩
  | store f v =>
      refine eq_wrap (s := s) (i := i) (c := (s.cpu i).leave f) ?_ rfl ?_ ⟨rfl, rfl, rfl, rfl, rfl, rfl, rfl⟩
      · exact congrArg (Function.update s.wrap.cpu i) (Cpu.wrap_leave (s.cpu i) f).symm
      · exact (BitVec.ofNat_add v 1).symm
  | batch =>
      refine eq_wrap (s := s) (i := i)
        (c := { s.cpu i with lBatch := unbounded.batch s.state, hazard := true, pc := .complete }) ?_ rfl rfl
        ⟨rfl, rfl, rfl, rfl, rfl, rfl, rfl⟩
      refine congrArg (Function.update s.wrap.cpu i) ?_
      unfold Cpu.wrap
      dsimp only
      rw [show s.wrap.state = word s.state from rfl, batch_word]
      rfl
  | complete =>
      have target := (sound.grace.waits i).target
      have same := (s.cpu i).wrap_advance s.state fun some => by
        obtain ⟨above, below, -⟩ := target some
        exact complete_word s.state (s.cpu i).cBatch (by omega) (by omega)
      show Option.map (s.wrap.setCpu i) ((s.cpu i).wrap.advance mword (word s.state)) = _
      rw [same]
      cases (s.cpu i).advance unbounded s.state with
      | none => rfl
      | some c => exact eq_wrap (s := s) (i := i) (c := c) rfl rfl rfl ⟨rfl, rfl, rfl, rfl, rfl, rfl, rfl⟩
  | invoke rest =>
      cases rest with
      | nil =>
          exact eq_wrap (s := s) (i := i) (c := { s.cpu i with done := [], pc := .out }) rfl rfl rfl ⟨rfl, rfl, rfl, rfl, rfl, rfl, rfl⟩
      | cons e rest =>
          exact eq_wrap (s := s) (i := i) (c := { s.cpu i with pc := .invoke rest }) rfl rfl rfl ⟨rfl, rfl, rfl, rfl, rfl, rfl, rfl⟩

theorem act_wrap (sound : Sound s) (a : Event n E) : act mword a s.wrap = (act unbounded a s).map wrap := by
  cases a with
  | call i e =>
      exact eq_wrap (s := s) (i := i) (c := { s.cpu i with next := (s.cpu i).next ++ [e] }) rfl rfl rfl
        ⟨rfl, rfl, rfl, rfl, rfl, rfl, rfl⟩
  | update i =>
      refine eq_wrap (s := s) (i := i)
        (c := { s.cpu i with pc := if (s.cpu i).lBatch ≠ unbounded.batch s.state then .batch else .complete }) ?_ rfl rfl
        ⟨rfl, rfl, rfl, rfl, rfl, rfl, rfl⟩
      refine congrArg (Function.update s.wrap.cpu i) ?_
      have compare : (s.wrap.cpu i).lBatch ≠ mword.batch s.wrap.state ↔ (s.cpu i).lBatch ≠ unbounded.batch s.state := by
        rw [ne_comm, ne_comm (a := (s.cpu i).lBatch)]
        exact not_congr (batch_wrap sound.protocol i)
      unfold Cpu.wrap
      dsimp only
      by_cases moved : (s.cpu i).lBatch ≠ unbounded.batch s.state
      · rw [if_pos moved, if_pos (compare.mpr moved)]
        rfl
      · rw [if_neg moved, if_neg fun is => moved (compare.mp is)]
        rfl
  | quiet i =>
      exact eq_wrap (s := s) (i := i) (c := { s.cpu i with hazard := false, pc := .dec }) rfl rfl rfl
        ⟨rfl, rfl, rfl, rfl, rfl, rfl, rfl⟩
  | step i => exact step_wrap sound i

theorem safe_wrap (safe : Safe s) : Safe s.wrap := by
  refine ⟨fun e => ?_, fun i e rest at_ => safe.grace i e rest (Pc.wrap_invoke.mp at_), safe.count, fun i at_ => ?_,
    fun i f v at_ => ?_, fun i j is also => safe.alone i j ?_ ?_⟩
  · have books := safe.once e
    simp only [← waiting_wrap] at books
    exact books
  · exact safe.owed i (Pc.wrap_dec.mp at_)
  · obtain ⟨w, is, rfl⟩ := Pc.wrap_store at_
    obtain ⟨same, count, paid⟩ := safe.starts i f w is
    exact ⟨congrArg word same, count, paid⟩
  · exact (Pc.starts_wrap _).symm.trans is
  · exact (Pc.starts_wrap _).symm.trans also

omit [DecidableEq E] in
theorem wrap_start : (start 1 0 : State n Nat Nat E).wrap = start 1#64 0#64 := by
  have zero : number 0 = 0#64 := by decide
  simp [wrap, start, Cpu.wrap, zero, goal, word, Pc.wrap]

/-- **Deferred callbacks**: in every state of every run of any number of CPUs, a callback is
invoked once for every call and only after every CPU has been quiet since; every batch is
started by one CPU, with `count` the number of CPUs, and every CPU decrements `count` once in
every batch. -/
theorem rcu_grace (run : List (Event n E)) (legal : Legal (act mword) Allowed (start 1#64 0#64) run) :
    ∃ s, runs (act mword) (start 1#64 0#64) run = some s ∧ Safe s ∧ (mword.batch s.state).toNat = s.started.length % 2 ^ 62 := by
  have keeps : ∀ (u : State n (BitVec 64) (BitVec 64) E) (a : Event n E), (∃ s : State n Nat Nat E, u = s.wrap ∧ Sound s) →
      u.Allowed a → ∃ u', act mword a u = some u' ∧ ∃ s : State n Nat Nat E, u' = s.wrap ∧ Sound s := by
    rintro u a ⟨s, rfl, sound⟩ allowed
    obtain ⟨s', done, sound'⟩ := act_sound sound ((allowed_wrap s a).mp allowed)
    exact ⟨s'.wrap, by rw [act_wrap sound, done, Option.map_some], s', rfl, sound'⟩
  obtain ⟨_, reached, s, rfl, sound⟩ := Legal.safe keeps run _ ⟨start 1 0, wrap_start.symm, start_sound⟩ legal
  refine ⟨s.wrap, reached, safe_wrap sound.safe, ?_⟩
  show (mword.batch (word s.state)).toNat = s.started.length % 2 ^ 62
  rw [batch_word, toNat_number, sound.protocol.log]

/-- CPU 0 defers a callback and starts a batch; both CPUs are quiet, and it is invoked. -/
def deferral : List (Event 2 Nat) :=
  [.call 0 7, .update 0, .step 0, .step 0, .step 0, .step 0, .step 0, .step 0,
    .update 0, .step 0, .step 0, .quiet 0, .step 0,
    .update 1, .step 1, .step 1, .quiet 1, .step 1, .step 1, .step 1,
    .update 0, .step 0]

theorem rcu_grace_deferral : ∃ s : State 2 (BitVec 64) (BitVec 64) Nat, runs (act mword) (start 1#64 0#64) deferral = some s ∧
    (s.cpu 0).pc = .invoke [7] ∧ ∀ k, s.since 7 k < s.quieted k := by
  obtain ⟨s, reached, safe, -⟩ := rcu_grace deferral (by decide +kernel)
  have next : (runs (act mword) (start 1#64 0#64) deferral).map (fun s => (s.cpu 0).pc) = some (.invoke [7]) := by
    decide +kernel
  rw [reached] at next
  have invokes : (s.cpu 0).pc = .invoke [7] := Option.some.inj next
  exact ⟨s, reached, invokes, safe.grace 0 7 [] invokes⟩

end State

end Nova.Kernel.Rcu
