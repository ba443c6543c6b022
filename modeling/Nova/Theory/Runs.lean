/-
# Nova.Theory.Runs — conditions and guarantees along a run

A run applies a list of operations to a state, one after the other.  `Along Q`
says that `Q` holds of every operation in the state it meets; a condition that is
imposed on a run and a guarantee that is proved of it are both of this form, and
`Along.transfer` derives one from the other through an invariant.

An operation that may fail (an assertion of the program) answers `none`.  `Legal`
is `Along` for such operations, and `Legal.safe` says that none of them fails.
`Since` looks back: `Since.of_ghost` gives a ghost variable its meaning in the past.
Operations that tell why they fail are in `Except`; `Meets` says what a result
satisfies and which faults are possible.
-/
import Mathlib.Algebra.GroupWithZero.Nat
import Mathlib.Data.List.Induction
import Mathlib.Logic.Basic

namespace Nova.Theory.Runs

set_option autoImplicit false

variable {S A : Type} (step : A → S → S)

/-- `Q` holds of every operation of the run in the state before it. -/
def Along (Q : S → A → Prop) : S → List A → Prop
  | _, [] => True
  | s, a :: rest => Q s a ∧ Along Q (step a s) rest

variable {step}

/-- **Invariant rule**: an invariant that every operation keeps under its condition
turns the condition into the guarantee, along the whole run. -/
theorem Along.transfer {I : S → Prop} {G R : S → A → Prop}
    (keeps : ∀ s a, I s → G s a → I (step a s) ∧ R s a) :
    ∀ (ops : List A) (s : S), I s → Along step G s ops → Along step R s ops
  | [], _, _, _ => trivial
  | a :: rest, s, inv, along => by
      obtain ⟨now, later⟩ := along
      obtain ⟨inv', holds⟩ := keeps s a inv now
      exact ⟨holds, Along.transfer keeps rest (step a s) inv' later⟩

/-- Where the invariant holds, the condition is exactly what the guarantee needs. -/
theorem Along.iff {I : S → Prop} {G R : S → A → Prop} (keeps : ∀ s a, I s → G s a → I (step a s))
    (exact : ∀ s a, I s → (R s a ↔ G s a)) : ∀ (ops : List A) (s : S), I s → (Along step R s ops ↔ Along step G s ops)
  | [], _, _ => Iff.rfl
  | a :: rest, s, inv => by
      have later (good : G s a) := Along.iff keeps exact rest (step a s) (keeps s a inv good)
      refine ⟨fun ⟨now, along⟩ => ?_, fun ⟨now, along⟩ => ⟨(exact s a inv).mpr now, (later now).mpr along⟩⟩
      have good := (exact s a inv).mp now
      exact ⟨good, (later good).mp along⟩

instance Along.decidable {Q : S → A → Prop} [∀ s a, Decidable (Q s a)] :
    ∀ (s : S) (ops : List A), Decidable (Along step Q s ops)
  | _, [] => .isTrue trivial
  | s, a :: rest =>
      have := Along.decidable (Q := Q) (step a s) rest
      inferInstanceAs (Decidable (_ ∧ _))

/-- What every operation keeps under its condition holds at the end of the run. -/
theorem Along.foldl {I : S → Prop} {G : S → A → Prop} (keeps : ∀ s a, I s → G s a → I (step a s)) :
    ∀ (ops : List A) (s : S), I s → Along step G s ops → I (ops.foldl (fun s a => step a s) s)
  | [], _, inv, _ => inv
  | a :: rest, s, inv, along => Along.foldl keeps rest (step a s) (keeps s a inv along.1) along.2

/-- A run in two parts -/
theorem Along.append {Q : S → A → Prop} {first second : List A} {s : S} :
    Along step Q s (first ++ second) ↔
      Along step Q s first ∧ Along step Q (first.foldl (fun s a => step a s) s) second := by
  induction first generalizing s with
  | nil => exact ⟨fun along => ⟨trivial, along⟩, fun along => along.2⟩
  | cons a rest ih =>
      rw [List.cons_append, Along, ih, ← and_assoc]
      rfl

/-- A condition that does not depend on the state. -/
theorem Along.of_forall {P : A → Prop} : ∀ {ops : List A} {s : S}, (∀ a ∈ ops, P a) →
    Along step (fun _ a => P a) s ops
  | [], _, _ => trivial
  | a :: _, _, all =>
      ⟨all a List.mem_cons_self, Along.of_forall fun b member => all b (List.mem_cons_of_mem a member)⟩

/-! ## Operations that may fail -/

section Partial

variable (attempt : A → S → Option S)

/-- The state after all operations, if none of them fails -/
def runs : S → List A → Option S
  | s, [] => some s
  | s, a :: rest => (attempt a s).bind fun s' => runs s' rest

/-- `Q` holds of every operation of the run in the state before it. -/
def Legal (Q : S → A → Prop) : S → List A → Prop
  | _, [] => True
  | s, a :: rest => Q s a ∧ ∀ s', attempt a s = some s' → Legal Q s' rest

variable {attempt}

instance Legal.decidable {Q : S → A → Prop} [∀ s a, Decidable (Q s a)] :
    ∀ (s : S) (ops : List A), Decidable (Legal attempt Q s ops)
  | _, [] => .isTrue trivial
  | s, a :: rest =>
      have : Decidable (∀ s', attempt a s = some s' → Legal attempt Q s' rest) :=
        match attempt a s with
        | none => .isTrue nofun
        | some s' =>
            have := Legal.decidable (Q := Q) s' rest
            decidable_of_iff (Legal attempt Q s' rest)
              ⟨fun legal _ is => Option.some.inj is ▸ legal, fun all => all s' rfl⟩
      inferInstanceAs (Decidable (_ ∧ _))

/-- **Invariant rule**: if every operation succeeds and keeps the invariant under its
condition, then so does the whole run. -/
theorem Legal.safe {I : S → Prop} {G : S → A → Prop}
    (keeps : ∀ s a, I s → G s a → ∃ s', attempt a s = some s' ∧ I s') :
    ∀ (ops : List A) (s : S), I s → Legal attempt G s ops → ∃ s', runs attempt s ops = some s' ∧ I s'
  | [], s, inv, _ => ⟨s, rfl, inv⟩
  | a :: rest, s, inv, legal => by
      obtain ⟨now, later⟩ := legal
      obtain ⟨s', done, inv'⟩ := keeps s a inv now
      obtain ⟨last, runs', final⟩ := Legal.safe keeps rest s' inv' (later s' done)
      exact ⟨last, by rw [runs, done, Option.bind_some, runs'], final⟩

/-- **Invariant rule**: what every operation keeps that succeeds holds at the end of a run. -/
theorem runs_keeps {I : S → Prop} (keeps : ∀ s a s', I s → attempt a s = some s' → I s') :
    ∀ {ops : List A} {s s' : S}, I s → runs attempt s ops = some s' → I s'
  | [], s, s', inv, run => by
      obtain rfl := Option.some.inj run
      exact inv
  | a :: rest, s, s', inv, run => by
      obtain ⟨s₁, done, later⟩ := Option.bind_eq_some_iff.mp run
      exact runs_keeps keeps (keeps s a s₁ inv done) later

/-- The same for runs whose operations meet a condition -/
theorem Legal.keeps {I : S → Prop} {G : S → A → Prop} (keeps : ∀ s a s', I s → G s a → attempt a s = some s' → I s') :
    ∀ {ops : List A} {s s' : S}, I s → Legal attempt G s ops → runs attempt s ops = some s' → I s'
  | [], s, s', inv, _, run => by
      obtain rfl := Option.some.inj run
      exact inv
  | a :: rest, s, s', inv, legal, run => by
      obtain ⟨s₁, done, later⟩ := Option.bind_eq_some_iff.mp run
      exact Legal.keeps keeps (keeps s a s₁ inv legal.1 done) (legal.2 s₁ done) later

/-- **Measure rule**: where every operation makes a measure smaller, a run is not longer than the measure. -/
theorem Legal.bounded {I : S → Prop} {G : S → A → Prop} {μ : S → Nat}
    (drops : ∀ s a s', I s → G s a → attempt a s = some s' → I s' ∧ μ s' < μ s) :
    ∀ {ops : List A} {s s' : S}, I s → Legal attempt G s ops → runs attempt s ops = some s' → ops.length + μ s' ≤ μ s
  | [], s, s', _, _, run => by
      obtain rfl := Option.some.inj run
      simp
  | a :: rest, s, s', inv, legal, run => by
      obtain ⟨s₁, done, later⟩ := Option.bind_eq_some_iff.mp run
      obtain ⟨inv', less⟩ := drops s a s₁ inv legal.1 done
      have bound := Legal.bounded drops inv' (legal.2 s₁ done) later
      rw [List.length_cons]
      omega

/-- A condition that does not depend on the state -/
theorem Legal.of_mem {P : A → Prop} {ops : List A} (all : ∀ a ∈ ops, P a) (s : S) : Legal attempt (fun _ a => P a) s ops := by
  induction ops generalizing s with
  | nil => trivial
  | cons a rest ih =>
      exact ⟨all a List.mem_cons_self, fun s' _ => ih (fun b member => all b (List.mem_cons_of_mem a member)) s'⟩

/-- A condition that every operation meets -/
theorem Legal.of_forall {Q : S → A → Prop} (all : ∀ s a, Q s a) (ops : List A) (s : S) : Legal attempt Q s ops := by
  induction ops generalizing s with
  | nil => trivial
  | cons a rest ih => exact ⟨all s a, fun s' _ => ih s'⟩

/-- A second condition, possibly only under an assumption -/
theorem Legal.and {Q R : S → A → Prop} {P : Prop} {ops : List A} {s : S} (first : Legal attempt Q s ops)
    (second : P → Legal attempt R s ops) : Legal attempt (fun s a => Q s a ∧ (P → R s a)) s ops := by
  induction ops generalizing s with
  | nil => trivial
  | cons a rest ih =>
      refine ⟨⟨first.1, fun holds => (second holds).1⟩, fun s' done => ?_⟩
      exact ih (first.2 s' done) fun holds => (second holds).2 s' done

/-- **Simulation rule**: `R` relates the states of a program to those of its abstraction.
If every permitted operation succeeds and keeps `R`, then so does the whole run. -/
theorem Along.simulates {T : Type} {concrete : A → T → Option T} {step : A → S → S} {R : T → S → Prop} {G : S → A → Prop}
    (keeps : ∀ t s a, R t s → G s a → ∃ t', concrete a t = some t' ∧ R t' (step a s)) :
    ∀ (ops : List A) (t : T) (s : S), R t s → Along step G s ops →
      ∃ t', runs concrete t ops = some t' ∧ R t' (ops.foldl (fun s a => step a s) s)
  | [], t, _, related, _ => ⟨t, rfl, related⟩
  | a :: rest, t, s, related, along => by
      obtain ⟨now, later⟩ := along
      obtain ⟨t₁, done, related₁⟩ := keeps t s a related now
      obtain ⟨t', run, related'⟩ := Along.simulates keeps rest t₁ (step a s) related₁ later
      exact ⟨t', by rw [runs, done, Option.bind_some, run], related'⟩

theorem runs_append (s : S) (first second : List A) :
    runs attempt s (first ++ second) = (runs attempt s first).bind fun s' => runs attempt s' second := by
  induction first generalizing s with
  | nil => rfl
  | cons a rest ih =>
      rw [List.cons_append, runs, runs, Option.bind_assoc]
      congr 1
      funext s'
      exact ih s'

theorem Legal.append {Q : S → A → Prop} {first second : List A} {s s' : S} (legal : Legal attempt Q s first)
    (reached : runs attempt s first = some s') (later : Legal attempt Q s' second) :
    Legal attempt Q s (first ++ second) := by
  induction first generalizing s with
  | nil =>
      obtain rfl := Option.some.inj reached
      exact later
  | cons a rest ih =>
      refine ⟨legal.1, fun s₁ done => ih (legal.2 s₁ done) ?_⟩
      rw [runs, done, Option.bind_some] at reached
      exact reached

variable (attempt) in
/-- At some moment of the run `P` held, and all operations from then on meet `Q`. -/
def Since (P : S → Prop) (Q : S → A → Prop) (s : S) (ops : List A) : Prop :=
  ∃ before after s', ops = before ++ after ∧ runs attempt s before = some s' ∧ P s' ∧ Legal attempt Q s' after

theorem Since.now {P : S → Prop} {Q : S → A → Prop} {ops : List A} {s s' : S} (run : runs attempt s ops = some s')
    (holds : P s') : Since attempt P Q s ops :=
  ⟨ops, [], s', (List.append_nil ops).symm, run, holds, trivial⟩

end Partial

/-! ## Operations that fail with a fault -/

section Faults

variable {ε : Type}

/-- The result satisfies `P`, or the operation failed with a fault of `Q`. -/
def Meets (Q : ε → Prop) (P : S → Prop) : Except ε S → Prop
  | .ok s => P s
  | .error e => Q e

variable {Q : ε → Prop}

theorem Meets.map {P : S → Prop} {f : S → S} {r : Except ε S} (meets : Meets Q (fun s => P (f s)) r) :
    Meets Q P (r.map f) := by
  cases r with
  | ok s => exact meets
  | error e => exact meets

theorem Meets.mono {P P' : S → Prop} {r : Except ε S} (meets : Meets Q P r) (weaker : ∀ s, P s → P' s) : Meets Q P' r := by
  cases r with
  | ok s => exact weaker s meets
  | error e => exact meets

theorem Meets.and {P P' : S → Prop} {r : Except ε S} (first : Meets Q P r) (second : Meets Q P' r) :
    Meets Q (fun s => P s ∧ P' s) r := by
  cases r with
  | ok s => exact ⟨first, second⟩
  | error e => exact first

/-- A result that satisfies `P` and fails with no fault at all -/
theorem Meets.total {P : S → Prop} {r : Except ε S} (meets : Meets (fun _ => False) P r) : ∃ s, r = .ok s ∧ P s := by
  cases r with
  | ok s => exact ⟨s, rfl, meets⟩
  | error e => exact meets.elim

/-- **Invariant rule**: what every operation keeps holds after any number of them. -/
theorem Meets.foldlM {I : S → Prop} {step : S → A → Except ε S} (keeps : ∀ s a, I s → Meets Q I (step s a)) :
    ∀ (ops : List A) (s : S), I s → Meets Q I (ops.foldlM step s)
  | [], _, inv => inv
  | a :: rest, s, inv => by
      have first := keeps s a inv
      rw [List.foldlM_cons]
      cases done : step s a with
      | ok s' =>
          rw [done] at first
          exact Meets.foldlM keeps rest s' first
      | error e =>
          rw [done] at first
          exact first

end Faults

end Nova.Theory.Runs
