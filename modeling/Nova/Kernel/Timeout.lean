/-
# Nova.Kernel.Timeout — the list of timeouts of a CPU

`src/timeout.cpp`: a doubly linked list of timeouts, ordered by time, whose first element
the timer is programmed for.  Membership is not stored anywhere: a timeout is in the list
if it is the first one or has a predecessor.

What `set_dln` and `stop` do to the timer is a parameter, `Timer`.  A run of a CPU goes
step by step: a trigger of a timeout that is due may itself enqueue and dequeue timeouts,
and time passes between any two steps.

* `enqueue_spec`, `dequeue_spec`: the two operations as operations on the ordered list;
* `timeouts_ordered`: the list in every state of every run, and what `check` has done when
  it returns;
* `not_in_order`: a trigger can enqueue a timeout that is due earlier than its own.
-/
import Mathlib.Data.Fintype.Card
import Mathlib.Data.List.TakeWhile
import Nova.Theory.Links
import Nova.Theory.Runs

namespace Nova.Kernel.Timeout

open Nova.Theory.Links
open Nova.Theory.Runs

set_option autoImplicit false

/-- `Timer`: its clock, and what `set_dln` and `stop` do to it -/
structure Timer (τ : Type) where
  time : τ → Nat
  setDln : Nat → τ → τ
  stop : τ → τ
  /-- Time passes. -/
  tick : τ → τ
  time_setDln : ∀ t timer, time (setDln t timer) = time timer
  time_stop : ∀ timer, time (stop timer) = time timer
  time_tick : ∀ timer, time timer ≤ time (tick timer)

structure Timeouts (n : Nat) (τ : Type) where
  time : Fin n → Nat
  prev : Fin n → Option (Fin n)
  next : Fin n → Option (Fin n)
  list : Option (Fin n)
  timer : τ

namespace Timeouts

variable {n : Nat} {τ : Type} (T : Timer τ)

/-- `list == this || prev` -/
def queued (s : Timeouts n τ) (x : Fin n) : Bool := s.list = some x || s.prev x ≠ none

/-- The assertions at the beginning of `enqueue` and the end of `dequeue` -/
def unlinked (s : Timeouts n τ) (x : Fin n) : Bool := s.list ≠ some x && s.prev x = none && s.next x = none

def sync (s : Timeouts n τ) : Timeouts n τ :=
  match s.list with
  | some x => { s with timer := T.setDln (s.time x) s.timer }
  | none => { s with timer := T.stop s.timer }

/-- The loop of `enqueue`: the last timeout before the first one that is not earlier -/
def search (s : Timeouts n τ) (t : Nat) : Nat → Option (Fin n) → Option (Fin n) → Option (Option (Fin n))
  | _, p, none => some p
  | 0, _, some _ => none
  | fuel + 1, p, some x => if s.time x ≥ t then some p else s.search t fuel (some x) (s.next x)

def enqueue (x : Fin n) (t : Nat) (s : Timeouts n τ) : Option (Timeouts n τ) :=
  if s.unlinked x then
    let s := { s with time := Function.update s.time x t }
    (s.search t n none s.list).map fun p =>
      let s := { s with prev := Function.update s.prev x p }
      let s := match p with
        | none => sync T { s with next := Function.update s.next x s.list, list := some x }
        | some y => { s with next := Function.update (Function.update s.next x (s.next y)) y (some x) }
      match s.next x with
      | none => s
      | some z => { s with prev := Function.update s.prev z (some x) }
  else none

def dequeue (x : Fin n) (s : Timeouts n τ) : Option (Nat × Timeouts n τ) :=
  let s :=
    if s.queued x then
      let s := match s.next x with
        | none => s
        | some z => { s with prev := Function.update s.prev z (s.prev x) }
      let s := match s.prev x with
        | some y => { s with next := Function.update s.next y (s.next x) }
        | none => sync T { s with list := s.next x }
      { s with prev := Function.update s.prev x none, next := Function.update s.next x none }
    else s
  if s.unlinked x then some (s.time x, s) else none

/-! ## The list -/

/-- The pointers are those of the list `L`. -/
structure Lists (s : Timeouts n τ) (L : List (Fin n)) : Prop where
  head : s.list = L.head?
  linked : Linked s.prev s.next L
  nodup : L.Nodup
  sorted : L.Pairwise fun a b => s.time a ≤ s.time b
  out : ∀ x, x ∉ L → s.prev x = none ∧ s.next x = none

variable {T} {s : Timeouts n τ} {L : List (Fin n)} {x : Fin n} {t : Nat}

/-- The timer after a change of the first element -/
def reprogram (T : Timer τ) (time : Fin n → Nat) (head : Option (Fin n)) (timer : τ) : τ :=
  match head with
  | some x => T.setDln (time x) timer
  | none => T.stop timer

theorem sync_eq (s : Timeouts n τ) : s.sync T = { s with timer := reprogram T s.time s.list s.timer } := by
  unfold sync reprogram
  cases s.list <;> rfl

namespace Lists

theorem queued_iff (lists : s.Lists L) : s.queued x = true ↔ x ∈ L := by
  unfold queued
  constructor
  · intro is
    by_contra out
    have pointers := lists.out x out
    have notHead : s.list ≠ some x := by
      rw [lists.head]
      exact fun first => out (List.mem_of_mem_head? first)
    simp [pointers.1, notHead] at is
  · intro member
    obtain ⟨A, B, rfl⟩ := List.append_of_mem member
    have pointers := lists.linked.at_
    cases A with
    | nil => simp [lists.head]
    | cons a A => simp [pointers.1]

theorem unlinked_iff (lists : s.Lists L) : s.unlinked x = true ↔ x ∉ L := by
  constructor
  · intro is member
    have queued := lists.queued_iff.mpr member
    simp only [unlinked, Timeouts.queued, Bool.and_eq_true, Bool.or_eq_true, decide_eq_true_eq] at is queued
    rcases queued with first | before
    · exact is.1.1 first
    · exact before is.1.2
  · intro out
    have notHead : s.list ≠ some x := by
      rw [lists.head]
      exact fun first => out (List.mem_of_mem_head? first)
    simp [unlinked, notHead, lists.out x out]

end Lists

/-! ## Enqueue -/

/-- The loop stops after the timeouts that are earlier. -/
theorem search_eq {A B : List (Fin n)} (linked : Linked s.prev s.next (A ++ B)) {fuel : Nat} (enough : B.length ≤ fuel) :
    s.search t fuel A.getLast? B.head? = some (A ++ B.takeWhile fun y => s.time y < t).getLast? := by
  induction B generalizing A fuel with
  | nil => simp [search]
  | cons b B ih =>
      obtain ⟨fuel, rfl⟩ := Nat.exists_eq_add_of_le' (Nat.lt_of_lt_of_le (Nat.succ_pos _) enough)
      have next : s.next b = B.head? := linked.at_.2
      rw [List.head?_cons, search]
      by_cases late : s.time b ≥ t
      · rw [if_pos late, List.takeWhile_cons_of_neg (by simpa using late), List.append_nil]
      · rw [if_neg late, List.takeWhile_cons_of_pos (by simpa using late), next]
        have rest := ih (A := A ++ [b]) (by simpa using linked) (Nat.le_of_succ_le_succ enough)
        simpa using rest

@[simp] theorem sync_time (s : Timeouts n τ) : (s.sync T).time = s.time := by
  unfold sync
  split <;> rfl

@[simp] theorem sync_prev (s : Timeouts n τ) : (s.sync T).prev = s.prev := by
  unfold sync
  split <;> rfl

@[simp] theorem sync_next (s : Timeouts n τ) : (s.sync T).next = s.next := by
  unfold sync
  split <;> rfl

@[simp] theorem sync_list (s : Timeouts n τ) : (s.sync T).list = s.list := by
  unfold sync
  split <;> rfl

/-- The last step of `enqueue` -/
def close (s : Timeouts n τ) (x : Fin n) : Timeouts n τ :=
  match s.next x with
  | none => s
  | some z => { s with prev := Function.update s.prev z (some x) }

@[simp] theorem close_time (s : Timeouts n τ) : (s.close x).time = s.time := by
  unfold close
  split <;> rfl

@[simp] theorem close_next (s : Timeouts n τ) : (s.close x).next = s.next := by
  unfold close
  split <;> rfl

@[simp] theorem close_list (s : Timeouts n τ) : (s.close x).list = s.list := by
  unfold close
  split <;> rfl

@[simp] theorem close_timer (s : Timeouts n τ) : (s.close x).timer = s.timer := by
  unfold close
  split <;> rfl

theorem close_prev {s : Timeouts n τ} {b : Option (Fin n)} (after : s.next x = b) (y : Fin n) :
    (s.close x).prev y = if b = some y then some x else s.prev y := by
  subst after
  unfold close
  cases s.next x with
  | none => simp
  | some z => simp [Function.update_apply, eq_comm]

/-- What `x` between `A` and `B` looks like in the pointers -/
structure Inserted (s s' : Timeouts n τ) (A : List (Fin n)) (x : Fin n) (B : List (Fin n)) : Prop where
  prev : ∀ y, s'.prev y = if y = x then A.getLast? else if B.head? = some y then some x else s.prev y
  next : ∀ y, s'.next y = if y = x then B.head? else if A.getLast? = some y then some x else s.next y
  list : s'.list = (A ++ x :: B).head?

theorem enqueue_eq {A B : List (Fin n)} (lists : s.Lists (A ++ B)) (out : x ∉ A ++ B)
    (found : ({ s with time := Function.update s.time x t } : Timeouts n τ).search t n none s.list = some A.getLast?) :
    ∃ s', s.enqueue T x t = some s' ∧ Inserted s s' A x B ∧ s'.time = Function.update s.time x t ∧
      s'.timer = if A = [] then T.setDln t s.timer else s.timer := by
  unfold enqueue
  rw [if_pos (lists.unlinked_iff.mpr out)]
  dsimp only
  rw [found, Option.map_some]
  have outA : x ∉ A := fun member => out (List.mem_append_left B member)
  have outB : x ∉ B := fun member => out (List.mem_append_right A member)
  have notHead : B.head? ≠ some x := fun first => outB (List.mem_of_mem_head? first)
  cases last : A.getLast? with
  | none =>
      obtain rfl := List.getLast?_eq_none_iff.mp last
      refine ⟨(sync T { s with
        time := Function.update s.time x t
        prev := Function.update s.prev x none
        next := Function.update s.next x s.list
        list := some x }).close x, rfl, ⟨fun y => ?_, fun y => ?_, ?_⟩, by simp, ?_⟩
      · rw [close_prev (b := B.head?) (by simpa using lists.head), sync_prev]
        dsimp only
        rw [Function.update_apply]
        by_cases here : y = x
        · subst here
          simp [notHead]
        · simp [here]
      · rw [close_next, sync_next]
        dsimp only
        rw [show s.list = B.head? from lists.head, Function.update_apply]
        simp
      · simp
      · rw [close_timer]
        simp [sync]
  | some y =>
      have ne : A ≠ [] := by
        rintro rfl
        cases last
      have inA : y ∈ A := List.mem_of_mem_getLast? last
      have other : y ≠ x := fun is => outA (is ▸ inA)
      have next : s.next y = B.head? := by
        obtain ⟨A', rfl⟩ := List.getLast?_eq_some_iff.mp last
        have linked := lists.linked
        rw [List.append_assoc, List.singleton_append] at linked
        exact linked.at_.2
      refine ⟨({ s with
        time := Function.update s.time x t
        prev := Function.update s.prev x (some y)
        next := Function.update (Function.update s.next x (s.next y)) y (some x) } : Timeouts n τ).close x,
        rfl, ⟨fun z => ?_, fun z => ?_, ?_⟩, by simp, by simp [ne]⟩
      · rw [close_prev (b := B.head?) (by simp [Function.update_of_ne other.symm, next])]
        dsimp only
        rw [Function.update_apply]
        by_cases here : z = x
        · subst here
          simp [notHead, last]
        · simp [here]
      · rw [close_next]
        dsimp only
        rw [Function.update_apply, Function.update_apply, next]
        by_cases here : z = x
        · subst here
          simp [other.symm]
        · by_cases there : z = y
          · subst there
            simp [here, last]
          · simp [here, there, Ne.symm there, last]
      · rw [close_list]
        obtain ⟨a, A', rfl⟩ := List.exists_cons_of_ne_nil ne
        exact lists.head

theorem Inserted.lists {s' : Timeouts n τ} {A B : List (Fin n)} (lists : s.Lists (A ++ B)) (out : x ∉ A ++ B)
    (inserted : Inserted s s' A x B) (sorted : (A ++ x :: B).Pairwise fun a b => s'.time a ≤ s'.time b) :
    s'.Lists (A ++ x :: B) := by
  have apart : ∀ y ∈ A ++ B, y ≠ x := fun y member is => out (is ▸ member)
  obtain ⟨-, -, disjoint⟩ := List.nodup_append.mp lists.nodup
  have notFirst : ∀ y ∈ A, B.head? ≠ some y := fun y member first => disjoint y member y (List.mem_of_mem_head? first) rfl
  have notLast : ∀ y ∈ B, A.getLast? ≠ some y := fun y member last => disjoint y (List.mem_of_mem_getLast? last) y member rfl
  refine ⟨inserted.list, ?_, ?_, sorted, fun y away => ?_⟩
  · refine lists.linked.insert lists.nodup ⟨?_, ?_⟩ (fun y member => ?_) (fun y member => ?_) (fun y member => ?_)
      (fun y member => ?_)
    · rw [inserted.prev, if_pos rfl]
    · rw [inserted.next, if_pos rfl]
    · rw [inserted.next, if_neg (apart y (List.mem_append_left B member))]
    · rw [inserted.prev, if_neg (apart y (List.mem_append_right A member))]
    · rw [inserted.prev, if_neg (apart y (List.mem_append_left B member)), if_neg (notFirst y member)]
    · rw [inserted.next, if_neg (apart y (List.mem_append_right A member)), if_neg (notLast y member)]
  · exact (List.nodup_middle).mpr (List.nodup_cons.mpr ⟨out, lists.nodup⟩)
  · have ne : y ≠ x := fun is => away (is ▸ by simp)
    have off : y ∉ A ++ B := fun member => away (by
      rcases List.mem_append.mp member with left | right
      · exact List.mem_append_left _ left
      · exact List.mem_append_right _ (List.mem_cons_of_mem x right))
    have first : B.head? ≠ some y := fun is => off (List.mem_append_right A (List.mem_of_mem_head? is))
    have last : A.getLast? ≠ some y := fun is => off (List.mem_append_left B (List.mem_of_mem_getLast? is))
    rw [inserted.prev, inserted.next, if_neg ne, if_neg ne, if_neg first, if_neg last]
    exact lists.out y off

/-- A sorted list falls into the earlier timeouts and the rest. -/
theorem exists_split (time : Fin n → Nat) (t : Nat) (sorted : L.Pairwise fun a b => time a ≤ time b) :
    ∃ A B, L = A ++ B ∧ (∀ a ∈ A, time a < t) ∧ ∀ b ∈ B, t ≤ time b := by
  induction L with
  | nil => exact ⟨[], [], rfl, nofun, nofun⟩
  | cons y L ih =>
      obtain ⟨first, rest⟩ := List.pairwise_cons.mp sorted
      by_cases early : time y < t
      · obtain ⟨A, B, rfl, before, after⟩ := ih rest
        refine ⟨y :: A, B, rfl, fun a member => ?_, after⟩
        rcases List.mem_cons.mp member with rfl | member
        · exact early
        · exact before a member
      · refine ⟨[], y :: L, rfl, nofun, fun b member => ?_⟩
        have le : t ≤ time y := Nat.le_of_not_lt early
        rcases List.mem_cons.mp member with rfl | member
        · exact le
        · exact le.trans (first b member)

/-- **`enqueue` inserts the timeout after those that are earlier.** -/
theorem enqueue_spec (lists : s.Lists L) (out : x ∉ L) (t : Nat) :
    ∃ A B s', L = A ++ B ∧ (∀ a ∈ A, s.time a < t) ∧ (∀ b ∈ B, t ≤ s.time b) ∧ s.enqueue T x t = some s' ∧
      s'.Lists (A ++ x :: B) ∧ s'.time = Function.update s.time x t ∧
      s'.timer = if A = [] then T.setDln t s.timer else s.timer := by
  obtain ⟨A, B, split, early, late⟩ := exists_split s.time t lists.sorted
  subst split
  have apart : ∀ y ∈ A ++ B, y ≠ x := fun y member is => out (is ▸ member)
  have found : ({ s with time := Function.update s.time x t } : Timeouts n τ).search t n none s.list = some A.getLast? := by
    have enough : (A ++ B).length ≤ n := by
      simpa using List.Nodup.length_le_card lists.nodup
    have stops : (A ++ B).takeWhile (fun y => decide (Function.update s.time x t y < t)) = A := by
      rw [List.takeWhile_append_of_pos, List.takeWhile_eq_nil_iff.mpr, List.append_nil]
      · intro some
        have first := List.get_mem B ⟨0, some⟩
        rw [Function.update_of_ne (apart _ (List.mem_append_right A first))]
        simpa using late _ first
      · intro a member
        rw [Function.update_of_ne (apart a (List.mem_append_left B member))]
        simpa using early a member
    have reads := search_eq (s := { s with time := Function.update s.time x t }) (t := t) (A := []) (B := A ++ B)
      lists.linked enough
    rw [List.nil_append, stops, ← lists.head] at reads
    exact reads
  obtain ⟨s', done, inserted, times, timer⟩ := enqueue_eq (T := T) lists out found
  refine ⟨A, B, s', rfl, early, late, done, inserted.lists lists out ?_, times, timer⟩
  obtain ⟨sortedA, sortedB, between⟩ := List.pairwise_append.mp lists.sorted
  have old : ∀ y ∈ A ++ B, s'.time y = s.time y := fun y member => by
    rw [times, Function.update_of_ne (apart y member)]
  have new : s'.time x = t := by
    rw [times, Function.update_self]
  refine List.pairwise_append.mpr ⟨?_, List.pairwise_cons.mpr ⟨?_, ?_⟩, ?_⟩
  · refine sortedA.imp_of_mem fun {a b} inA inB le => ?_
    rwa [old a (List.mem_append_left B inA), old b (List.mem_append_left B inB)]
  · intro b member
    rw [new, old b (List.mem_append_right A member)]
    exact late b member
  · refine sortedB.imp_of_mem fun {a b} inA inB le => ?_
    rwa [old a (List.mem_append_right A inA), old b (List.mem_append_right A inB)]
  · intro a inA b inB
    rw [old a (List.mem_append_left B inA)]
    rcases List.mem_cons.mp inB with rfl | inB
    · rw [new]
      exact Nat.le_of_lt (early a inA)
    · rw [old b (List.mem_append_right A inB)]
      exact between a inA b inB

/-! ## Dequeue -/

/-- The first step of `dequeue`: the successor gets the predecessor. -/
def bypass (s : Timeouts n τ) (x : Fin n) : Timeouts n τ :=
  match s.next x with
  | none => s
  | some z => { s with prev := Function.update s.prev z (s.prev x) }

theorem bypass_prev {s : Timeouts n τ} {b : Option (Fin n)} (after : s.next x = b) (y : Fin n) :
    (s.bypass x).prev y = if b = some y then s.prev x else s.prev y := by
  subst after
  unfold bypass
  cases s.next x with
  | none => simp
  | some z => simp [Function.update_apply, eq_comm]

@[simp] theorem bypass_next (s : Timeouts n τ) : (s.bypass x).next = s.next := by
  unfold bypass
  split <;> rfl

@[simp] theorem bypass_time (s : Timeouts n τ) : (s.bypass x).time = s.time := by
  unfold bypass
  split <;> rfl

@[simp] theorem bypass_list (s : Timeouts n τ) : (s.bypass x).list = s.list := by
  unfold bypass
  split <;> rfl

@[simp] theorem bypass_timer (s : Timeouts n τ) : (s.bypass x).timer = s.timer := by
  unfold bypass
  split <;> rfl

/-- What the pointers look like after `x` has left its place between `A` and `B` -/
structure Removed (s s' : Timeouts n τ) (A : List (Fin n)) (x : Fin n) (B : List (Fin n)) : Prop where
  prev : ∀ y, s'.prev y = if y = x then none else if B.head? = some y then A.getLast? else s.prev y
  next : ∀ y, s'.next y = if y = x then none else if A.getLast? = some y then B.head? else s.next y
  list : s'.list = (A ++ B).head?

theorem Removed.lists {s' : Timeouts n τ} {A B : List (Fin n)} (lists : s.Lists (A ++ x :: B))
    (removed : Removed s s' A x B) (times : s'.time = s.time) : s'.Lists (A ++ B) := by
  obtain ⟨out, nodup⟩ := List.nodup_cons.mp (List.nodup_middle.mp lists.nodup)
  have apart : ∀ y ∈ A ++ B, y ≠ x := fun y member is => out (is ▸ member)
  obtain ⟨-, -, disjoint⟩ := List.nodup_append.mp nodup
  have notFirst : ∀ y ∈ A, B.head? ≠ some y := fun y member first => disjoint y member y (List.mem_of_mem_head? first) rfl
  have notLast : ∀ y ∈ B, A.getLast? ≠ some y := fun y member last => disjoint y (List.mem_of_mem_getLast? last) y member rfl
  have sub : (A ++ B).Sublist (A ++ x :: B) := List.Sublist.append_left (List.sublist_cons_self x B) A
  refine ⟨removed.list, ?_, nodup, ?_, fun y away => ?_⟩
  · refine lists.linked.unlink lists.nodup (fun y member => ?_) (fun y member => ?_) (fun y member => ?_)
      (fun y member => ?_)
    · rw [removed.next, if_neg (apart y (List.mem_append_left B member))]
    · rw [removed.prev, if_neg (apart y (List.mem_append_right A member))]
    · rw [removed.prev, if_neg (apart y (List.mem_append_left B member)), if_neg (notFirst y member)]
    · rw [removed.next, if_neg (apart y (List.mem_append_right A member)), if_neg (notLast y member)]
  · rw [times]
    exact lists.sorted.sublist sub
  · by_cases here : y = x
    · rw [removed.prev, removed.next, if_pos here, if_pos here]
      exact ⟨rfl, rfl⟩
    · have first : B.head? ≠ some y := fun is => away (List.mem_append_right A (List.mem_of_mem_head? is))
      have last : A.getLast? ≠ some y := fun is => away (List.mem_append_left B (List.mem_of_mem_getLast? is))
      rw [removed.prev, removed.next, if_neg here, if_neg here, if_neg first, if_neg last]
      refine lists.out y fun member => ?_
      rcases List.mem_append.mp member with left | right
      · exact away (List.mem_append_left B left)
      · rcases List.mem_cons.mp right with is | right
        · exact here is
        · exact away (List.mem_append_right A right)

theorem remove_eq {A B : List (Fin n)} (lists : s.Lists (A ++ x :: B)) :
    ∃ s', s.dequeue T x = (if s'.unlinked x then some (s'.time x, s') else none) ∧ Removed s s' A x B ∧
      s'.time = s.time ∧ s'.timer = if A = [] then reprogram T s.time B.head? s.timer else s.timer := by
  have member : s.queued x = true := lists.queued_iff.mpr (List.mem_append_right A List.mem_cons_self)
  obtain ⟨before, after⟩ := lists.linked.at_
  obtain ⟨out, nodup⟩ := List.nodup_cons.mp (List.nodup_middle.mp lists.nodup)
  have notLast : A.getLast? ≠ some x := fun last => out (List.mem_append_left B (List.mem_of_mem_getLast? last))
  have notFirst : B.head? ≠ some x := fun first => out (List.mem_append_right A (List.mem_of_mem_head? first))
  have kept : (s.bypass x).prev x = A.getLast? := by
    rw [bypass_prev after, if_neg notFirst, before]
  unfold dequeue
  rw [if_pos member, ← bypass]
  dsimp only
  cases last : A.getLast? with
  | none =>
      obtain rfl := List.getLast?_eq_none_iff.mp last
      rw [last] at kept before
      rw [kept]
      dsimp only
      refine ⟨_, rfl, ⟨fun y => ?_, fun y => ?_, ?_⟩, ?_, ?_⟩
      · dsimp only
        rw [Function.update_apply, sync_prev]
        dsimp only
        rw [bypass_prev after, before]
        rfl
      · dsimp only
        rw [Function.update_apply, sync_next]
        simp
      · simp [after]
      · simp
      · dsimp only
        rw [sync_eq]
        simp [after]
  | some z =>
      have ne : A ≠ [] := by
        rintro rfl
        cases last
      rw [last] at kept before
      rw [kept]
      dsimp only
      refine ⟨_, rfl, ⟨fun y => ?_, fun y => ?_, ?_⟩, ?_, ?_⟩
      · dsimp only
        rw [Function.update_apply, bypass_prev after, before, last]
      · dsimp only
        rw [Function.update_apply, bypass_next, Function.update_apply, after, last]
        simp only [Option.some.injEq, eq_comm]
      · dsimp only
        rw [bypass_list, lists.head]
        obtain ⟨a, A', rfl⟩ := List.exists_cons_of_ne_nil ne
        rfl
      · simp
      · simp [ne]

/-- **`dequeue` removes the timeout.** -/
theorem dequeue_spec {A B : List (Fin n)} (lists : s.Lists (A ++ x :: B)) :
    ∃ s', s.dequeue T x = some (s.time x, s') ∧ s'.Lists (A ++ B) ∧ s'.time = s.time ∧
      s'.timer = if A = [] then reprogram T s.time B.head? s.timer else s.timer := by
  obtain ⟨s', done, removed, times, timer⟩ := remove_eq (T := T) lists
  have lists' := removed.lists lists times
  have out : x ∉ A ++ B := (List.nodup_cons.mp (List.nodup_middle.mp lists.nodup)).1
  rw [if_pos (lists'.unlinked_iff.mpr out), times] at done
  exact ⟨s', done, lists', times, timer⟩

/-- A timeout that is not queued is left alone. -/
theorem dequeue_out (lists : s.Lists L) (out : x ∉ L) : s.dequeue T x = some (s.time x, s) := by
  have not : ¬ s.queued x = true := fun is => out (lists.queued_iff.mp is)
  unfold dequeue
  rw [if_neg not]
  exact if_pos (lists.unlinked_iff.mpr out)

theorem reprogram_time (T : Timer τ) (time : Fin n → Nat) (head : Option (Fin n)) (timer : τ) :
    T.time (reprogram T time head timer) = T.time timer := by
  unfold reprogram
  cases head with
  | none => exact T.time_stop timer
  | some x => exact T.time_setDln (time x) timer

/-- The timeouts of the list with their times -/
def entries (s : Timeouts n τ) : Nat → Option (Fin n) → List (Fin n × Nat)
  | 0, _ => []
  | _, none => []
  | fuel + 1, some x => (x, s.time x) :: s.entries fuel (s.next x)

theorem entries_eq {A B : List (Fin n)} (linked : Linked s.prev s.next (A ++ B)) {fuel : Nat} (enough : B.length ≤ fuel) :
    s.entries fuel B.head? = B.map fun x => (x, s.time x) := by
  induction B generalizing A fuel with
  | nil => cases fuel <;> rfl
  | cons b B ih =>
      obtain ⟨fuel, rfl⟩ := Nat.exists_eq_add_of_le' (Nat.lt_of_lt_of_le (Nat.succ_pos _) enough)
      have rest := ih (A := A ++ [b]) (by simpa using linked) (Nat.le_of_succ_le_succ enough)
      rw [List.head?_cons, entries, linked.at_.2, rest, List.map_cons]

end Timeouts

/-! ## A CPU -/

/-- Where the CPU is: elsewhere, at the head of the loop of `check`, or in a trigger -/
inductive Pc where
  | idle
  | loop
  | trigger
deriving DecidableEq, Repr

/-- The last three fields are the books of the call of `check`: what was in the list or has
come into it since, what was dequeued by a trigger, and what was triggered, in order. -/
structure Cpu (n : Nat) (τ : Type) where
  core : Timeouts n τ
  pc : Pc
  entered : List (Fin n × Nat)
  cancelled : List (Fin n × Nat)
  fired : List (Fin n × Nat)

inductive Act (n : Nat) where
  | tick
  | enqueue (x : Fin n) (t : Nat)
  | dequeue (x : Fin n)
  | check
  | loop
  | done
deriving DecidableEq

namespace Cpu

variable {n : Nat} {τ : Type} (T : Timer τ)

/-- One evaluation of the condition of the loop, and `t->dequeue()` if it holds -/
def loop (s : Cpu n τ) : Option (Cpu n τ) :=
  match s.core.list with
  | none => some { s with pc := .idle }
  | some x =>
      if s.core.time x ≤ T.time s.core.timer then
        (s.core.dequeue T x).map fun (t, core) => { s with core, pc := .trigger, fired := s.fired ++ [(x, t)] }
      else some { s with pc := .idle }

def act : Act n → Cpu n τ → Option (Cpu n τ)
  | .tick, s => some { s with core := { s.core with timer := T.tick s.core.timer } }
  | .enqueue x t, s => (s.core.enqueue T x t).map fun core => { s with core, entered := s.entered ++ [(x, t)] }
  | .dequeue x, s => (s.core.dequeue T x).map fun (t, core) =>
      { s with core, cancelled := if s.core.queued x then s.cancelled ++ [(x, t)] else s.cancelled }
  | .check, s => some { s with pc := .loop, entered := s.core.entries n s.core.list, cancelled := [], fired := [] }
  | .loop, s => s.loop T
  | .done, s => some { s with pc := .loop }

/-- What the code does next, and that only timeouts that are not queued are enqueued -/
def Allowed (s : Cpu n τ) : Act n → Prop
  | .tick => True
  | .enqueue x _ => s.pc ≠ .loop ∧ s.core.queued x = false
  | .dequeue _ => s.pc ≠ .loop
  | .check => s.pc = .idle
  | .loop => s.pc = .loop
  | .done => s.pc = .trigger

instance (s : Cpu n τ) : ∀ a, Decidable (s.Allowed a)
  | .tick => .isTrue trivial
  | .enqueue x _ => inferInstanceAs (Decidable (s.pc ≠ .loop ∧ s.core.queued x = false))
  | .dequeue _ => inferInstanceAs (Decidable (s.pc ≠ .loop))
  | .check => inferInstanceAs (Decidable (s.pc = .idle))
  | .loop => inferInstanceAs (Decidable (s.pc = .loop))
  | .done => inferInstanceAs (Decidable (s.pc = .trigger))

def start (timer : τ) : Cpu n τ := ⟨⟨fun _ => 0, fun _ => none, fun _ => none, none, timer⟩, .idle, [], [], []⟩

/-! ## The order -/

/-- A trigger enqueues no timeout that is due before its own. -/
def Timely (s : Cpu n τ) : Act n → Prop
  | .enqueue _ t => s.pc = .trigger → ∀ e, s.fired.getLast? = some e → e.2 ≤ t
  | _ => True

/-- The list, the books of `check`, and the order in which it works -/
structure Ordered (P : Prop) (s : Cpu n τ) (L : List (Fin n)) : Prop where
  lists : s.core.Lists L
  books : s.entered.Perm (s.fired ++ s.cancelled ++ L.map fun x => (x, s.core.time x))
  due : ∀ e ∈ s.fired, e.2 ≤ T.time s.core.timer
  order : P → s.fired.Pairwise fun e f => e.2 ≤ f.2
  ahead : P → s.pc ≠ .idle → ∀ e ∈ s.fired, ∀ x ∈ L, e.2 ≤ s.core.time x

/-- A change of the first element reprograms the timer. -/
def Reprogrammed (s s' : Cpu n τ) : Prop :=
  s'.core.list ≠ s.core.list →
    s'.core.timer = Timeouts.reprogram T s'.core.time s'.core.list s.core.timer

/-- When `check` returns, nothing that is due is left. -/
def Settled (s s' : Cpu n τ) : Prop :=
  s.pc = .loop → s'.pc = .idle → ∀ x, s'.core.queued x = true → T.time s'.core.timer < s'.core.time x

variable {T} {P : Prop} {s : Cpu n τ} {L : List (Fin n)}

theorem start_ordered (timer : τ) : Ordered T P (start timer : Cpu n τ) [] where
  lists := ⟨rfl, trivial, List.nodup_nil, List.Pairwise.nil, fun _ _ => ⟨rfl, rfl⟩⟩
  books := List.Perm.refl _
  due := nofun
  order := fun _ => List.Pairwise.nil
  ahead := fun _ _ => nofun

/-- What one action does -/
def Acts (T : Timer τ) (P : Prop) (a : Act n) (s : Cpu n τ) : Prop :=
  ∃ s', act T a s = some s' ∧ (∃ L, Ordered T P s' L) ∧ Reprogrammed T s s' ∧ Settled T s s'

theorem acts_enqueue (ordered : Ordered T P s L) {x : Fin n} {t : Nat} (allowed : s.Allowed (.enqueue x t))
    (timely : P → s.Timely (.enqueue x t)) : Acts T P (.enqueue x t) s := by
  obtain ⟨elsewhere, free⟩ := allowed
  have out : x ∉ L := fun member => by
    rw [ordered.lists.queued_iff.mpr member] at free
    cases free
  obtain ⟨A, B, core, rfl, early, late, done, lists, times, timer⟩ :=
    Timeouts.enqueue_spec (T := T) ordered.lists out t
  have old : ∀ y ∈ A ++ B, core.time y = s.core.time y := fun y member => by
    have ne : y ≠ x := fun is => out (is ▸ member)
    rw [times, Function.update_of_ne ne]
  have new : core.time x = t := by
    rw [times, Function.update_self]
  have clock : T.time core.timer = T.time s.core.timer := by
    rw [timer]
    split
    · exact T.time_setDln t _
    · rfl
  refine ⟨{ s with core, entered := s.entered ++ [(x, t)] }, by rw [act, done, Option.map_some],
    ⟨A ++ x :: B, lists, ?_, ?_, ordered.order, ?_⟩, ?_, fun at_ => absurd at_ elsewhere⟩
  · have grown : ((A ++ x :: B).map fun y => (y, core.time y)).Perm
        (((A ++ B).map fun y => (y, s.core.time y)) ++ [(x, t)]) := by
      refine (List.perm_middle.map _).trans ?_
      rw [List.map_cons, new, List.map_congr_left fun y member => by rw [old y member]]
      exact (List.perm_append_singleton _ _).symm
    refine (ordered.books.append_right [(x, t)]).trans ?_
    rw [List.append_assoc (s.fired ++ s.cancelled)]
    exact grown.symm.append_left _
  · rw [clock]
    exact ordered.due
  · intro holds busy e member y inside
    rcases List.mem_append.mp inside with left | right
    · rw [old y (List.mem_append_left B left)]
      exact ordered.ahead holds busy e member y (List.mem_append_left B left)
    · rcases List.mem_cons.mp right with rfl | right
      · have here : s.pc = .trigger := by
          cases at_ : s.pc with
          | idle => exact absurd at_ busy
          | loop => exact absurd at_ elsewhere
          | trigger => rfl
        rw [new]
        obtain ⟨before, last, split⟩ := (List.eq_nil_or_concat s.fired).resolve_left (List.ne_nil_of_mem member)
        rw [List.concat_eq_append] at split
        have bound := timely holds here last (by rw [split, List.getLast?_concat])
        have sorted := ordered.order holds
        rw [split] at member sorted
        rcases List.mem_append.mp member with earlier | same
        · exact ((List.pairwise_append.mp sorted).2.2 e earlier last List.mem_cons_self).trans bound
        · rw [List.mem_singleton.mp same]
          exact bound
      · rw [old y (List.mem_append_right A right)]
        exact ordered.ahead holds busy e member y (List.mem_append_right A right)
  · intro moved
    cases A with
    | nil =>
        rw [timer, if_pos rfl, lists.head]
        exact congrArg (fun u => T.setDln u s.core.timer) new.symm
    | cons a A => exact absurd (lists.head.trans ordered.lists.head.symm) moved

/-- A timeout leaves the list. -/
theorem removal {A B : List (Fin n)} {x : Fin n} (ordered : Ordered T P s (A ++ x :: B)) :
    ∃ core, s.core.dequeue T x = some (s.core.time x, core) ∧ core.Lists (A ++ B) ∧ core.time = s.core.time ∧
      T.time core.timer = T.time s.core.timer ∧
      (core.list ≠ s.core.list → core.timer = Timeouts.reprogram T core.time core.list s.core.timer) := by
  obtain ⟨core, done, lists, times, timer⟩ := Timeouts.dequeue_spec (T := T) ordered.lists
  refine ⟨core, done, lists, times, ?_, fun moved => ?_⟩
  · rw [timer]
    split
    · exact Timeouts.reprogram_time T _ _ _
    · rfl
  · cases A with
    | nil =>
        rw [timer, if_pos rfl, lists.head, times]
        rfl
    | cons a A => exact absurd (lists.head.trans ordered.lists.head.symm) moved

theorem acts_dequeue (ordered : Ordered T P s L) {x : Fin n} (allowed : s.Allowed (.dequeue x)) :
    Acts T P (.dequeue x) s := by
  by_cases member : x ∈ L
  · obtain ⟨A, B, rfl⟩ := List.append_of_mem member
    obtain ⟨core, done, lists, times, clock, reprogrammed⟩ := removal ordered
    have queued : s.core.queued x = true := ordered.lists.queued_iff.mpr member
    refine ⟨{ s with core, cancelled := s.cancelled ++ [(x, s.core.time x)] }, ?_,
      ⟨A ++ B, lists, ?_, ?_, ordered.order, ?_⟩, reprogrammed, fun at_ => absurd at_ allowed⟩
    · rw [act, done, Option.map_some]
      dsimp only
      rw [if_pos queued]
    · refine ordered.books.trans ?_
      rw [times, ← List.append_assoc s.fired, List.append_assoc (s.fired ++ s.cancelled)]
      exact (List.perm_middle.map _).append_left _
    · rw [clock]
      exact ordered.due
    · intro holds busy e fired y inside
      rw [times]
      refine ordered.ahead holds busy e fired y ?_
      rcases List.mem_append.mp inside with left | right
      · exact List.mem_append_left _ left
      · exact List.mem_append_right _ (List.mem_cons_of_mem x right)
  · have out : ¬ s.core.queued x = true := fun is => member (ordered.lists.queued_iff.mp is)
    refine ⟨s, ?_, ⟨L, ordered⟩, fun moved => absurd rfl moved, fun at_ => absurd at_ allowed⟩
    rw [act, Timeouts.dequeue_out ordered.lists member, Option.map_some]
    dsimp only
    rw [if_neg out]

theorem acts_loop (ordered : Ordered T P s L) (allowed : s.Allowed .loop) : Acts T P .loop s := by
  have returns : (∀ x ∈ L, T.time s.core.timer < s.core.time x) → s.loop T = some { s with pc := .idle } →
      Acts T P .loop s := by
    intro late done
    refine ⟨{ s with pc := .idle }, done,
      ⟨L, ordered.lists, ordered.books, ordered.due, ordered.order, fun _ busy => absurd rfl busy⟩,
      fun moved => absurd rfl moved, fun _ _ x queued => late x (ordered.lists.queued_iff.mp queued)⟩
  have first := ordered.lists.head
  cases L with
  | nil =>
      refine returns nofun ?_
      rw [loop, first]
      rfl
  | cons x L =>
      rw [List.head?_cons] at first
      obtain ⟨least, -⟩ := List.pairwise_cons.mp ordered.lists.sorted
      by_cases due : s.core.time x ≤ T.time s.core.timer
      · obtain ⟨core, done, lists, times, clock, reprogrammed⟩ := removal (A := []) ordered
        refine ⟨{ s with core, pc := .trigger, fired := s.fired ++ [(x, s.core.time x)] }, ?_,
          ⟨L, lists, ?_, ?_, ?_, ?_⟩, reprogrammed, nofun⟩
        · rw [act, loop, first]
          dsimp only
          rw [if_pos due, done, Option.map_some]
        · refine ordered.books.trans ?_
          rw [List.map_cons, times, List.append_assoc, List.append_assoc, List.append_assoc]
          exact List.perm_middle.append_left s.fired
        · rw [clock]
          intro e member
          rcases List.mem_append.mp member with before | here
          · exact ordered.due e before
          · rw [List.mem_singleton.mp here]
            exact due
        · intro holds
          refine List.pairwise_append.mpr ⟨ordered.order holds, List.pairwise_singleton _ _, fun e before f here => ?_⟩
          rw [List.mem_singleton.mp here]
          exact ordered.ahead holds (by rw [allowed]; nofun) e before x List.mem_cons_self
        · intro holds _ e member y inside
          rw [times]
          rcases List.mem_append.mp member with before | here
          · exact ordered.ahead holds (by rw [allowed]; nofun) e before y (List.mem_cons_of_mem x inside)
          · rw [List.mem_singleton.mp here]
            exact least y inside
      · refine returns (fun y member => ?_) ?_
        · rcases List.mem_cons.mp member with rfl | member
          · exact Nat.lt_of_not_le due
          · exact (Nat.lt_of_not_le due).trans_le (least y member)
        · rw [loop, first]
          exact if_neg due

theorem acts (ordered : Ordered T P s L) {a : Act n} (allowed : s.Allowed a) (timely : P → s.Timely a) :
    Acts T P a s := by
  cases a with
  | tick =>
      refine ⟨_, rfl, ⟨L, ⟨ordered.lists.head, ordered.lists.linked, ordered.lists.nodup, ordered.lists.sorted,
        ordered.lists.out⟩, ordered.books, fun e member => ?_, ordered.order, ordered.ahead⟩,
        fun moved => absurd rfl moved, fun at_ idle => ?_⟩
      · exact (ordered.due e member).trans (T.time_tick _)
      · rw [idle] at at_
        cases at_
  | enqueue x t => exact acts_enqueue ordered allowed timely
  | dequeue x => exact acts_dequeue ordered allowed
  | check =>
      refine ⟨_, rfl, ⟨L, ordered.lists, ?_, nofun, fun _ => List.Pairwise.nil, nofun⟩, fun moved => absurd rfl moved, nofun⟩
      have enough : L.length ≤ n := by
        simpa using List.Nodup.length_le_card ordered.lists.nodup
      dsimp only
      rw [ordered.lists.head, Timeouts.entries_eq (A := []) ordered.lists.linked enough]
      exact List.Perm.refl _
  | loop => exact acts_loop ordered allowed
  | done =>
      have busy : s.pc ≠ .idle := by
        rw [show s.pc = .trigger from allowed]
        nofun
      exact ⟨_, rfl, ⟨L, ordered.lists, ordered.books, ordered.due, ordered.order, fun holds _ => ordered.ahead holds busy⟩,
        fun moved => absurd rfl moved, nofun⟩

/-- **The timeouts of a CPU**, in every state of every run: the list is linked and ordered and
the assertions hold, a new first element reprograms the timer, whatever was or came into the
list during `check` has been triggered once, was dequeued or is still there, and when `check`
returns nothing that is due is left.  The order is that of the times if the triggers enqueue
nothing that is due before their own timeout. -/
theorem timeouts_ordered (T : Timer τ) (timer : τ) (run : List (Act n))
    (legal : Legal (act T) Allowed (start timer) run) :
    ∃ s, runs (act T) (start timer) run = some s ∧
      (∃ L, s.core.Lists L ∧ s.entered.Perm (s.fired ++ s.cancelled ++ L.map fun x => (x, s.core.time x))) ∧
      (∀ e ∈ s.fired, e.2 ≤ T.time s.core.timer) ∧
      (Legal (act T) Timely (start timer) run → s.fired.Pairwise fun e f => e.2 ≤ f.2) ∧
      ∀ a, s.Allowed a → ∃ s', act T a s = some s' ∧ Reprogrammed T s s' ∧ Settled T s s' := by
  have both : Legal (act T) (fun s a => Allowed s a ∧ (Legal (act T) Timely (start timer) run → Timely s a))
      (start timer) run := legal.and fun is => is
  obtain ⟨s, reached, L, ordered⟩ := Legal.safe (I := fun s => ∃ L, Ordered T _ s L)
    (fun s a inv holds => by
      obtain ⟨L, ordered⟩ := inv
      obtain ⟨s', done, kept, -⟩ := acts ordered holds.1 holds.2
      exact ⟨s', done, kept⟩) run _ ⟨[], start_ordered timer⟩ both
  refine ⟨s, reached, ⟨L, ordered.lists, ordered.books⟩, ordered.due, ordered.order, fun a allowed => ?_⟩
  have plain : Ordered T False s L := ⟨ordered.lists, ordered.books, ordered.due, nofun, nofun⟩
  obtain ⟨s', done, -, reprogrammed, settled⟩ := acts plain allowed nofun
  exact ⟨s', done, reprogrammed, settled⟩

/-- A timer of which only the clock matters -/
def clock : Timer Nat where
  time now := now
  setDln _ now := now
  stop now := now
  tick now := now + 1
  time_setDln _ _ := rfl
  time_stop _ := rfl
  time_tick now := Nat.le_succ now

local instance : NeZero 2 := ⟨by decide⟩

/-- Timeout 0 is due at 2; its trigger enqueues timeout 1, which is due at 1. -/
def overtaking : List (Act 2) := [.enqueue 0 2, .tick, .tick, .check, .loop, .enqueue 1 1, .done, .loop, .done, .loop]

theorem timeouts_ordered_overtaking : ∃ s, runs (act clock) (start 0) overtaking = some s ∧
    ∃ L, s.core.Lists L ∧ s.entered.Perm (s.fired ++ s.cancelled ++ L.map fun x => (x, s.core.time x)) := by
  obtain ⟨s, reached, books, -⟩ := timeouts_ordered clock 0 overtaking (by decide +kernel)
  exact ⟨s, reached, books⟩

/-- **A timeout may overtake an earlier one**: the trigger of the first enqueues it. -/
theorem not_in_order : ¬ ∀ (run : List (Act 2)) (s : Cpu 2 Nat), Legal (act clock) Allowed (start 0) run →
    runs (act clock) (start 0) run = some s → s.fired.Pairwise fun e f => e.2 ≤ f.2 := by
  intro inOrder
  have fired : (runs (act clock) (start 0) overtaking).map (·.fired) = some [(0, 2), (1, 1)] := by
    decide +kernel
  cases reached : runs (act clock) (start 0) overtaking with
  | none =>
      rw [reached] at fired
      cases fired
  | some s =>
      have sorted := inOrder overtaking s (by decide +kernel) reached
      rw [reached] at fired
      have order : s.fired = [(0, 2), (1, 1)] := Option.some.inj fired
      rw [order] at sorted
      revert sorted
      decide

end Cpu

end Nova.Kernel.Timeout
