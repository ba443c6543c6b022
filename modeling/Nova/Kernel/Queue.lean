/-
# Nova.Kernel.Queue — queues of elements with links

`Queue` of `inc/queue.hpp`: every element has two pointers of its own, which form a
ring while it is queued, and a queue is a pointer to the first element of its ring.
All queues of one type share the elements.  An assertion that fails, or an access
through a null pointer, is `none`.

What queues are for is in `Seqs`: a sequence for each queue, with the operations on
lists.  `Represents` connects the two, and `queue_refines` says that every run of
operations that are permitted on the sequences gives the same answers on the links.
-/
import Nova.Theory.Rings
import Nova.Theory.Runs

namespace Nova.Kernel.Queue

open Nova.Theory.Links
open Nova.Theory.Rings
open Nova.Theory.Runs

set_option autoImplicit false

/-- The links of all elements, and the heads of all queues -/
structure Queues (κ α : Type) where
  next : α → Option α
  prev : α → Option α
  head : κ → Option α

namespace Queues

variable {κ α : Type}

def init : Queues κ α := ⟨fun _ => none, fun _ => none, fun _ => none⟩

/-- `Element::queued` -/
def queued (s : Queues κ α) (e : α) : Bool := (s.next e).isSome || (s.prev e).isSome

def empty (s : Queues κ α) (q : κ) : Bool := (s.head q).isNone

variable [DecidableEq κ] [DecidableEq α]

def setNext (s : Queues κ α) (e : α) (v : Option α) : Queues κ α := { s with next := Function.update s.next e v }

def setPrev (s : Queues κ α) (e : α) (v : Option α) : Queues κ α := { s with prev := Function.update s.prev e v }

def setHead (s : Queues κ α) (q : κ) (v : Option α) : Queues κ α := { s with head := Function.update s.head q v }

/-- `e->next->prev = e->prev->next = e`, the right one first -/
def hook (s : Queues κ α) (e : α) : Option (Queues κ α) :=
  (s.prev e).bind fun p =>
    let s := s.setNext p (some e)
    (s.next e).map fun n => s.setPrev n (some e)

def enqueue (q : κ) (e : α) (h : Bool) (s : Queues κ α) : Option (Bool × Queues κ α) :=
  if s.queued e then none
  else
    match s.head q with
    | none => some (true, ((s.setNext e (some e)).setPrev e (some e)).setHead q (some e))
    | some head =>
        let s := (s.setNext e (some head)).setPrev e (s.prev head)
        (s.hook e).map fun s => (false, if h then s.setHead q (some e) else s)

/-- `e->next->prev = e->prev`, then `e->prev->next = e->next` -/
def unhook (s : Queues κ α) (e : α) : Option (Queues κ α) :=
  (s.next e).bind fun n =>
    let s := s.setPrev n (s.prev e)
    (s.prev e).map fun p => s.setNext p (s.next e)

def dequeue (q : κ) (e : α) (s : Queues κ α) : Option (Queues κ α) :=
  if s.queued e then
    (if s.next e = some e then some (s.setHead q none)
      else (s.unhook e).map fun s => if s.head q = some e then s.setHead q (s.next e) else s).map
      fun s => (s.setNext e none).setPrev e none
  else none

def dequeueHead (q : κ) (s : Queues κ α) : Option (Option α × Queues κ α) :=
  match s.head q with
  | none => some (none, s)
  | some h => (s.dequeue q h).map fun s => (some h, s)

end Queues

inductive Op (κ α : Type) where
  | enqueueHead (q : κ) (e : α)
  | enqueueTail (q : κ) (e : α)
  | dequeue (q : κ) (e : α)
  | dequeueHead (q : κ)

/-- What an operation returns -/
inductive Answer (α : Type) where
  | void
  | wasEmpty (yes : Bool)
  | element (e : Option α)
  deriving DecidableEq

section Steps

variable {κ α : Type} [DecidableEq κ] [DecidableEq α]

/-- One operation, with the answers so far -/
def step (op : Op κ α) (s : List (Answer α) × Queues κ α) : Option (List (Answer α) × Queues κ α) :=
  match op with
  | .enqueueHead q e => (s.2.enqueue q e true).map fun r => (s.1 ++ [.wasEmpty r.1], r.2)
  | .enqueueTail q e => (s.2.enqueue q e false).map fun r => (s.1 ++ [.wasEmpty r.1], r.2)
  | .dequeue q e => (s.2.dequeue q e).map fun s' => (s.1 ++ [.void], s')
  | .dequeueHead q => (s.2.dequeueHead q).map fun r => (s.1 ++ [.element r.1], r.2)

/-! ## Sequences -/

/-- What the queues are for -/
abbrev Seqs (κ α : Type) := κ → List α

/-- Elements are enqueued if they are in no queue, and dequeued from the queue that they are in. -/
def Permitted (s : List (Answer α) × Seqs κ α) : Op κ α → Prop
  | .enqueueHead _ e | .enqueueTail _ e => ∀ q, e ∉ s.2 q
  | .dequeue q e => e ∈ s.2 q
  | .dequeueHead _ => True

/-- The operations on sequences -/
def seqStep (op : Op κ α) (s : List (Answer α) × Seqs κ α) : List (Answer α) × Seqs κ α :=
  let L := s.2
  match op with
  | .enqueueHead q e => (s.1 ++ [.wasEmpty (L q).isEmpty], Function.update L q (e :: L q))
  | .enqueueTail q e => (s.1 ++ [.wasEmpty (L q).isEmpty], Function.update L q (L q ++ [e]))
  | .dequeue q e => (s.1 ++ [.void], Function.update L q ((L q).erase e))
  | .dequeueHead q => (s.1 ++ [.element (L q).head?], Function.update L q (L q).tail)

end Steps

/-- The links represent the sequences. -/
structure Represents {κ α : Type} (s : Queues κ α) (L : Seqs κ α) : Prop where
  ring : ∀ q, Ring s.prev s.next (L q)
  head : ∀ q, s.head q = (L q).head?
  nodup : ∀ q, (L q).Nodup
  apart : ∀ q r e, e ∈ L q → e ∈ L r → q = r
  off : ∀ e, (∀ q, e ∉ L q) → s.next e = none ∧ s.prev e = none

namespace Represents

variable {κ α : Type} {s s' : Queues κ α} {L : Seqs κ α}

theorem init : Represents (Queues.init : Queues κ α) fun _ => [] where
  ring _ := ring_nil
  head _ := rfl
  nodup _ := List.nodup_nil
  apart _ _ _ member := nomatch member
  off _ _ := ⟨rfl, rfl⟩

theorem next_isSome (rep : Represents s L) {q : κ} {e : α} (member : e ∈ L q) : (s.next e).isSome = true := by
  obtain ⟨A, B, split⟩ := List.append_of_mem member
  have ring := rep.ring q
  rw [split] at ring
  rw [ring.rotate.first.2, Option.isSome_or, Option.isSome_some, Bool.or_true]

theorem queued_iff (rep : Represents s L) (e : α) : s.queued e = true ↔ ∃ q, e ∈ L q := by
  constructor
  · intro queued
    by_contra nowhere
    obtain ⟨next, prev⟩ := rep.off e fun q member => nowhere ⟨q, member⟩
    rw [Queues.queued, next, prev] at queued
    cases queued
  · rintro ⟨q, member⟩
    rw [Queues.queued, rep.next_isSome member, Bool.true_or]

theorem empty_iff (rep : Represents s L) (q : κ) : s.empty q = true ↔ L q = [] := by
  rw [Queues.empty, rep.head, Option.isNone_iff_eq_none, List.head?_eq_none_iff]

variable [DecidableEq κ] [DecidableEq α]

/-- The rule for an operation on one queue: the sequence of `q` becomes `M`. -/
theorem update (rep : Represents s L) {q : κ} {M : List α} (ring : Ring s'.prev s'.next M)
    (head : s'.head = Function.update s.head q M.head?) (nodup : M.Nodup) (own : ∀ e ∈ M, ∀ r, r ≠ q → e ∉ L r)
    (same : ∀ e, e ∉ L q → e ∉ M → s'.prev e = s.prev e ∧ s'.next e = s.next e)
    (gone : ∀ e ∈ L q, e ∉ M → s'.next e = none ∧ s'.prev e = none) : Represents s' (Function.update L q M) where
  ring r := by
    by_cases here : r = q
    · subst here
      rwa [Function.update_self]
    · rw [Function.update_of_ne here]
      refine (rep.ring r).congr fun e member => same e (fun mine => here (rep.apart r q e member mine)) fun mine => ?_
      exact own e mine r here member
  head r := by
    by_cases here : r = q
    · subst here
      rw [head, Function.update_self, Function.update_self]
    · rw [head, Function.update_of_ne here, Function.update_of_ne here]
      exact rep.head r
  nodup r := by
    by_cases here : r = q
    · subst here
      rwa [Function.update_self]
    · rw [Function.update_of_ne here]
      exact rep.nodup r
  apart r t e first second := by
    by_cases r_q : r = q <;> by_cases t_q : t = q
    · rw [r_q, t_q]
    · rw [r_q, Function.update_self] at first
      rw [Function.update_of_ne t_q] at second
      exact absurd second (own e first t t_q)
    · rw [t_q, Function.update_self] at second
      rw [Function.update_of_ne r_q] at first
      exact absurd first (own e second r r_q)
    · rw [Function.update_of_ne r_q] at first
      rw [Function.update_of_ne t_q] at second
      exact rep.apart r t e first second
  off e nowhere := by
    have notM : e ∉ M := by
      have := nowhere q
      rwa [Function.update_self] at this
    by_cases old : e ∈ L q
    · exact gone e old notM
    · have all (r : κ) : e ∉ L r := by
        by_cases here : r = q
        · exact here ▸ old
        · have := nowhere r
          rwa [Function.update_of_ne here] at this
      obtain ⟨prev, next⟩ := same e old notM
      rw [prev, next]
      exact rep.off e all

/-- **Enqueueing** an element that is in no queue -/
theorem enqueue (rep : Represents s L) {q : κ} {e : α} (out : ∀ r, e ∉ L r) (h : Bool) :
    ∃ s', s.enqueue q e h = some ((L q).isEmpty, s') ∧
      Represents s' (Function.update L q (if h then e :: L q else L q ++ [e])) := by
  have unqueued : s.queued e = false := by
    rw [Bool.eq_false_iff, ne_eq, rep.queued_iff]
    exact fun ⟨r, member⟩ => out r member
  have own {M : List α} (sub : ∀ x ∈ M, x = e ∨ x ∈ L q) : ∀ x ∈ M, ∀ r, r ≠ q → x ∉ L r := by
    intro x member r other there
    rcases sub x member with rfl | mine
    · exact out r there
    · exact other (rep.apart r q x there mine)
  have head := rep.head q
  cases seq : L q with
  | nil =>
      rw [seq] at head
      refine ⟨((s.setNext e (some e)).setPrev e (some e)).setHead q (some e), ?_, ?_⟩
      · simp [Queues.enqueue, unqueued, head]
      · have M : (if h then e :: ([] : List α) else [] ++ [e]) = [e] := by cases h <;> rfl
        rw [M]
        refine rep.update ?_ rfl (List.nodup_singleton e) (own fun x member => .inl (List.mem_singleton.mp member)) ?_ ?_
        · exact ring_singleton.mpr ⟨Function.update_self .., Function.update_self ..⟩
        · intro x _ other
          have ne : x ≠ e := fun is => other (List.mem_singleton.mpr is)
          exact ⟨Function.update_of_ne ne .., Function.update_of_ne ne ..⟩
        · intro x member
          rw [seq] at member
          cases member
  | cons a rest =>
      rw [seq] at head
      have ring := rep.ring q
      have nodup := rep.nodup q
      have absent : e ∉ a :: rest := seq ▸ out q
      rw [seq] at ring nodup
      obtain ⟨p, last⟩ : ∃ p, (a :: rest).getLast? = some p := ⟨_, List.getLast?_cons⟩
      have ne {x : α} (member : x ∈ a :: rest) : x ≠ e := fun is => absent (is ▸ member)
      have a_ne : a ≠ e := ne List.mem_cons_self
      have p_ne : p ≠ e := ne (List.mem_of_getLast? last)
      -- the links after the two assignments through the neighbours
      let linked := (((s.setNext e (some a)).setPrev e (some p)).setNext p (some e)).setPrev a (some e)
      have done : s.enqueue q e h = some (false, if h then linked.setHead q (some e) else linked) := by
        have prev : s.prev a = some p := ring.first.1.trans last
        simp [Queues.enqueue, unqueued, head, Queues.hook, Queues.setNext, Queues.setPrev, prev,
          Function.update_of_ne p_ne.symm, linked]
      have inserted : Ring linked.prev linked.next (e :: a :: rest) := by
        refine ring.insert nodup (List.cons_ne_nil a rest) ⟨?_, ?_⟩ (fun y member => ?_) fun y member => ?_
        · simp [linked, Queues.setNext, Queues.setPrev, a_ne.symm, last]
        · simp [linked, Queues.setNext, Queues.setPrev, p_ne.symm]
        · by_cases first : y = a
          · simp [linked, Queues.setNext, Queues.setPrev, first]
          · simp [linked, Queues.setNext, Queues.setPrev, first, ne member, Ne.symm first]
        · rw [last]
          by_cases final : y = p
          · simp [linked, Queues.setNext, Queues.setPrev, final]
          · simp [linked, Queues.setNext, Queues.setPrev, final, ne member, Ne.symm final]
      have same : ∀ x, x ∉ L q → x ≠ e → linked.prev x = s.prev x ∧ linked.next x = s.next x := by
        intro x old other
        rw [seq] at old
        have x_a : x ≠ a := fun is => old (is ▸ List.mem_cons_self)
        have x_p : x ≠ p := fun is => old (is ▸ List.mem_of_getLast? last)
        simp [linked, Queues.setNext, Queues.setPrev, other, x_a, x_p]
      refine ⟨_, done, ?_⟩
      cases h with
      | true =>
          refine rep.update inserted rfl (List.nodup_cons.mpr ⟨absent, nodup⟩) (own fun x member => ?_) ?_ ?_
          · rw [seq]
            exact List.mem_cons.mp member
          · exact fun x old other => same x old fun is => other (is ▸ List.mem_cons_self)
          · intro x member other
            rw [seq] at member
            exact absurd (List.mem_cons_of_mem e member) other
      | false =>
          have first : linked.head = Function.update s.head q (a :: rest ++ [e]).head? := by
            rw [List.cons_append, List.head?_cons, ← List.head?_cons, ← head, Function.update_eq_self]
            rfl
          refine rep.update (Ring.rotate (A := [e]) inserted) first ?_ (own fun x member => ?_) ?_ ?_
          · exact nodup.append (List.nodup_singleton e) (by simpa using absent)
          · rw [seq]
            rcases List.mem_append.mp member with old | new
            · exact .inr old
            · exact .inl (List.mem_singleton.mp new)
          · exact fun x old other => same x old fun is => other (is ▸ List.mem_append_right _ List.mem_cons_self)
          · intro x member other
            rw [seq] at member
            exact absurd (List.mem_append_left [e] member) other

/-- **Dequeueing** an element of the queue -/
theorem dequeue (rep : Represents s L) {q : κ} {A B : List α} {e : α} (split : L q = A ++ e :: B) :
    ∃ s', s.dequeue q e = some s' ∧ Represents s' (Function.update L q (A ++ B)) := by
  have ring : Ring s.prev s.next (e :: (B ++ A)) := by
    have whole := rep.ring q
    rw [split] at whole
    exact whole.rotate
  have nodup : (e :: (B ++ A)).Nodup := by
    have whole := rep.nodup q
    rw [split] at whole
    exact List.perm_append_comm.nodup_iff.mp whole
  obtain ⟨absent, nodup⟩ := List.nodup_cons.mp nodup
  have member : e ∈ L q := split ▸ List.mem_append_right A List.mem_cons_self
  have queued : s.queued e = true := (rep.queued_iff e).mpr ⟨q, member⟩
  have own : ∀ x ∈ A ++ B, ∀ r, r ≠ q → x ∉ L r := by
    intro x kept r other there
    have mine : x ∈ L q := by
      rw [split]
      rcases List.mem_append.mp kept with left | right
      · exact List.mem_append_left _ left
      · exact List.mem_append_right A (List.mem_cons_of_mem e right)
    exact other (rep.apart r q x there mine)
  have leaves {x : α} (old : x ∈ L q) (not : x ∉ A ++ B) : x = e := by
    rw [split] at old
    rcases List.mem_append.mp old with left | right
    · exact absurd (List.mem_append_left B left) not
    · rcases List.mem_cons.mp right with is | right
      · exact is
      · exact absurd (List.mem_append_right A right) not
  have head := rep.head q
  rw [split] at head
  by_cases alone : B ++ A = []
  · obtain ⟨rfl, rfl⟩ := List.append_eq_nil_iff.mp alone
    obtain ⟨-, next⟩ := ring_singleton.mp ring
    refine ⟨((s.setHead q none).setNext e none).setPrev e none, ?_, ?_⟩
    · rw [Queues.dequeue, if_pos queued, if_pos next, Option.map_some]
    · refine rep.update ring_nil rfl List.nodup_nil own (fun x old _ => ?_) fun x old not => ?_
      · have ne : x ≠ e := fun is => old (is ▸ member)
        exact ⟨Function.update_of_ne ne .., Function.update_of_ne ne ..⟩
      · obtain rfl := leaves old not
        exact ⟨Function.update_self .., Function.update_self ..⟩
  · obtain ⟨prev, next, -⟩ := (ring_cons alone).mp ring
    obtain ⟨n, first⟩ : ∃ n, (B ++ A).head? = some n := ⟨_, List.head?_eq_some_head alone⟩
    obtain ⟨p, last⟩ : ∃ p, (B ++ A).getLast? = some p := ⟨_, List.getLast?_eq_some_getLast alone⟩
    rw [last] at prev
    rw [first] at next
    have ne {x : α} (member : x ∈ B ++ A) : x ≠ e := fun is => absent (is ▸ member)
    have n_ne : n ≠ e := ne (List.mem_of_mem_head? first)
    have p_ne : p ≠ e := ne (List.mem_of_getLast? last)
    let linked := (s.setPrev n (some p)).setNext p (some n)
    let final := ((if s.head q = some e then linked.setHead q (some n) else linked).setNext e none).setPrev e none
    have done : s.dequeue q e = some final := by
      have more : s.next e ≠ some e := fun is => n_ne (Option.some.inj (next.symm.trans is))
      rw [Queues.dequeue, if_pos queued, if_neg more]
      simp [Queues.unhook, Queues.setNext, Queues.setPrev, prev, next, Function.update_of_ne n_ne.symm,
        Function.update_of_ne p_ne.symm, linked, final]
    have links {x : α} (other : x ≠ e) : final.prev x = linked.prev x ∧ final.next x = linked.next x := by
      by_cases isHead : s.head q = some e
      · simp [final, isHead, Queues.setNext, Queues.setPrev, Queues.setHead, other]
      · simp [final, isHead, Queues.setNext, Queues.setPrev, other]
    have removed : Ring final.prev final.next (B ++ A) := by
      refine ring.remove nodup alone (fun y member => ?_) fun y member => ?_
      · rw [(links (ne member)).1, next, prev]
        by_cases is : y = n
        · simp [linked, Queues.setNext, Queues.setPrev, is]
        · simp [linked, Queues.setNext, Queues.setPrev, is, Ne.symm is]
      · rw [(links (ne member)).2, next, prev]
        by_cases is : y = p
        · simp [linked, Queues.setNext, Queues.setPrev, is]
        · simp [linked, Queues.setNext, Queues.setPrev, is, Ne.symm is]
    have heads : final.head = Function.update s.head q (A ++ B).head? := by
      cases A with
      | nil =>
          rw [List.append_nil] at first
          have isHead : s.head q = some e := head
          simp [final, isHead, linked, Queues.setNext, Queues.setPrev, Queues.setHead, first]
      | cons a A =>
          have isHead : s.head q ≠ some e := by
            rw [head]
            exact fun is => ne (List.mem_append_right B List.mem_cons_self) (Option.some.inj is)
          have same : (a :: A ++ B).head? = s.head q := head.symm
          rw [same, Function.update_eq_self]
          simp [final, isHead, linked, Queues.setNext, Queues.setPrev]
    refine ⟨final, done, rep.update removed.rotate heads (List.perm_append_comm.nodup_iff.mp nodup) own
      (fun x old _ => ?_) fun x old not => ?_⟩
    · have x_e : x ≠ e := fun is => old (is ▸ member)
      have apart {y : α} (mem : y ∈ B ++ A) : x ≠ y := by
        rintro rfl
        refine old (split ▸ ?_)
        rcases List.mem_append.mp mem with right | left
        · exact List.mem_append_right A (List.mem_cons_of_mem e right)
        · exact List.mem_append_left _ left
      rw [(links x_e).1, (links x_e).2]
      exact ⟨Function.update_of_ne (apart (List.mem_of_mem_head? first)) ..,
        Function.update_of_ne (apart (List.mem_of_getLast? last)) ..⟩
    · obtain rfl := leaves old not
      exact ⟨Function.update_self .., Function.update_self ..⟩

/-- **Dequeueing the head**, if there is one -/
theorem dequeueHead (rep : Represents s L) (q : κ) :
    ∃ s', s.dequeueHead q = some ((L q).head?, s') ∧ Represents s' (Function.update L q (L q).tail) := by
  have head := rep.head q
  cases seq : L q with
  | nil =>
      rw [seq] at head
      refine ⟨s, by rw [Queues.dequeueHead, head]; rfl, ?_⟩
      rwa [List.tail_nil, ← seq, Function.update_eq_self]
  | cons a rest =>
      rw [seq] at head
      obtain ⟨s', done, rep'⟩ := rep.dequeue (A := []) seq
      exact ⟨s', by rw [Queues.dequeueHead, head]; simp [done], rep'⟩

/-- One operation -/
theorem step (rep : Represents s L) {answers : List (Answer α)} {op : Op κ α} (permitted : Permitted (answers, L) op) :
    ∃ r, Queue.step op (answers, s) = some r ∧ r.1 = (seqStep op (answers, L)).1 ∧ Represents r.2 (seqStep op (answers, L)).2 := by
  cases op with
  | enqueueHead q e =>
      obtain ⟨s', done, rep'⟩ := rep.enqueue permitted true
      exact ⟨_, by rw [Queue.step, done]; rfl, rfl, rep'⟩
  | enqueueTail q e =>
      obtain ⟨s', done, rep'⟩ := rep.enqueue permitted false
      exact ⟨_, by rw [Queue.step, done]; rfl, rfl, rep'⟩
  | dequeue q e =>
      obtain ⟨A, B, (split : L q = A ++ e :: B)⟩ := List.append_of_mem permitted
      obtain ⟨s', done, rep'⟩ := rep.dequeue split
      have erased : (L q).erase e = A ++ B := by
        have nodup := rep.nodup q
        rw [split] at nodup ⊢
        have left : e ∉ A := fun member => (List.nodup_append.mp nodup).2.2 e member e List.mem_cons_self rfl
        rw [List.erase_append_right _ left, List.erase_cons_head]
      refine ⟨_, by rw [Queue.step, done]; rfl, rfl, ?_⟩
      rw [seqStep, erased]
      exact rep'
  | dequeueHead q =>
      obtain ⟨s', done, rep'⟩ := rep.dequeueHead q
      exact ⟨_, by rw [Queue.step, done]; rfl, rfl, rep'⟩

end Represents

/-- **Queues are sequences.**  Every run of operations that are permitted on the sequences
passes all assertions and gives the answers of the list operations: `enqueue` tells
whether the queue was empty, `dequeue_head` the first element or null.  In the end the
links represent the sequences, `empty` tells the empty one, and `queued` tells whether
an element is in some queue, also if it is the only one there. -/
theorem queue_refines {κ α : Type} [DecidableEq κ] [DecidableEq α] (ops : List (Op κ α))
    (permitted : Along seqStep Permitted ([], fun _ => []) ops) :
    ∃ s, runs step (([], Queues.init) : List (Answer α) × Queues κ α) ops = some s ∧
      s.1 = (ops.foldl (fun s op => seqStep op s) ([], fun _ => [])).1 ∧
      Represents s.2 (ops.foldl (fun s op => seqStep op s) ([], fun _ => [])).2 ∧
      (∀ q, s.2.empty q = true ↔ (ops.foldl (fun s op => seqStep op s) ([], fun _ => [])).2 q = []) ∧
      ∀ e, s.2.queued e = true ↔ ∃ q, e ∈ (ops.foldl (fun s op => seqStep op s) ([], fun _ => [])).2 q := by
  let R (s : List (Answer α) × Queues κ α) (t : List (Answer α) × Seqs κ α) : Prop := s.1 = t.1 ∧ Represents s.2 t.2
  have keeps : ∀ (s : List (Answer α) × Queues κ α) (t : List (Answer α) × Seqs κ α) (op : Op κ α), R s t → Permitted t op →
      ∃ s', step op s = some s' ∧ R s' (seqStep op t) := by
    rintro ⟨answers, s⟩ ⟨_, L⟩ op ⟨rfl, rep⟩ allowed
    obtain ⟨r, done, same, rep'⟩ := rep.step allowed
    exact ⟨r, done, same, rep'⟩
  obtain ⟨s, run, same, rep⟩ := Along.simulates keeps ops ([], Queues.init) ([], fun _ => []) ⟨rfl, Represents.init⟩ permitted
  exact ⟨s, run, same, rep, rep.empty_iff, rep.queued_iff⟩

/-- Two queues: insertion at both ends, removal from the middle, the head and the sole element -/
theorem queue_refines_two : ∃ s,
    runs step (([], Queues.init) : List (Answer Nat) × Queues (Fin 2) Nat) [.enqueueTail 0 1, .enqueueTail 0 2,
      .enqueueHead 0 3, .enqueueTail 1 4, .dequeue 0 1, .dequeueHead 0, .dequeueHead 1, .dequeueHead 1] = some s ∧
      s.1 = [.wasEmpty true, .wasEmpty false, .wasEmpty false, .wasEmpty true, .void, .element (some 3), .element (some 4),
        .element none] ∧ s.2.queued 2 = true ∧ s.2.queued 4 = false := by
  obtain ⟨s, run, answers, -, -, queued⟩ := queue_refines (κ := Fin 2) [.enqueueTail 0 1, .enqueueTail 0 2,
    .enqueueHead 0 3, .enqueueTail 1 4, .dequeue 0 1, .dequeueHead 0, .dequeueHead 1, .dequeueHead 1]
    (by simp [Along, Permitted, seqStep])
  refine ⟨s, run, answers, (queued 2).mpr ⟨0, by decide⟩, ?_⟩
  rw [Bool.eq_false_iff, ne_eq, queued]
  decide

end Nova.Kernel.Queue
