/-
# Nova.Theory.Links — doubly linked lists

The nodes of a list in order, seen through the two pointers that every node has.
`Linked` says that the pointers of the nodes are those of the list; `Linked.at_`
reads them off at any place, `Linked.insert` and `Linked.unlink` say which two
pointers outside the node itself have to change.
-/
import Mathlib.Algebra.GroupWithZero.Nat
import Mathlib.Data.List.Basic
import Mathlib.Data.List.Nodup

namespace Nova.Theory.Links

set_option autoImplicit false

variable {α : Type} {prev next prev' next' : α → Option α}

/-- A part of a list, with the neighbours at its two ends -/
def Segment (prev next : α → Option α) : Option α → List α → Option α → Prop
  | _, [], _ => True
  | before, x :: rest, after =>
      prev x = before ∧ next x = rest.head?.or after ∧ Segment prev next (some x) rest after

/-- A whole list -/
def Linked (prev next : α → Option α) (L : List α) : Prop := Segment prev next none L none

theorem getLast?_cons_or (x : α) (L : List α) (b : Option α) :
    (x :: L).getLast?.or b = L.getLast?.or (some x) := by
  rw [List.getLast?_cons]
  cases L.getLast? <;> rfl

theorem segment_append (A B : List α) (before after : Option α) :
    Segment prev next before (A ++ B) after ↔
      Segment prev next before A (B.head?.or after) ∧ Segment prev next (A.getLast?.or before) B after := by
  induction A generalizing before with
  | nil => simp [Segment]
  | cons x A ih =>
      rw [List.cons_append, Segment, Segment, ih, getLast?_cons_or, List.head?_append, Option.or_assoc, and_assoc,
        and_assoc]

theorem Segment.congr {before after : Option α} :
    ∀ {L : List α}, Segment prev next before L after → (∀ x ∈ L, prev' x = prev x ∧ next' x = next x) →
      Segment prev' next' before L after := by
  intro L
  induction L generalizing before with
  | nil => intro _ _; trivial
  | cons x L ih =>
      rintro ⟨back, forth, rest⟩ same
      obtain ⟨samePrev, sameNext⟩ := same x List.mem_cons_self
      exact ⟨samePrev.trans back, sameNext.trans forth,
        ih rest fun y member => same y (List.mem_cons_of_mem x member)⟩

/-- Another left neighbour -/
theorem Segment.setBefore {before before' after : Option α} :
    ∀ {L : List α}, Segment prev next before L after → (∀ y, L.head? = some y → prev' y = before') →
      (∀ y ∈ L.tail, prev' y = prev y) → (∀ y ∈ L, next' y = next y) → Segment prev' next' before' L after
  | [], _, _, _, _ => trivial
  | x :: _, ⟨_, forth, rest⟩, first, back, same =>
      ⟨first x rfl, (same x List.mem_cons_self).trans forth,
        rest.congr fun y member => ⟨back y member, same y (List.mem_cons_of_mem x member)⟩⟩

/-- Another right neighbour -/
theorem Segment.setAfter {before after after' : Option α} :
    ∀ {L : List α}, L.Nodup → Segment prev next before L after → (∀ y, L.getLast? = some y → next' y = after') →
      (∀ y ∈ L, L.getLast? ≠ some y → next' y = next y) → (∀ y ∈ L, prev' y = prev y) →
      Segment prev' next' before L after' := by
  intro L
  induction L generalizing before with
  | nil => intro _ _ _ _ _; trivial
  | cons x L ih =>
      rintro nodup ⟨back, forth, rest⟩ last others same
      refine ⟨(same x List.mem_cons_self).trans back, ?_, ih (List.nodup_cons.mp nodup).2 rest ?_ ?_ ?_⟩
      · cases L with
        | nil => exact last x rfl
        | cons y L =>
            refine (others x List.mem_cons_self fun e => ?_).trans forth
            rw [List.getLast?_cons_cons] at e
            exact (List.nodup_cons.mp nodup).1 (List.mem_of_mem_getLast? e)
      · intro y e
        refine last y ?_
        rw [List.getLast?_cons, e]
        rfl
      · intro y member e
        refine others y (List.mem_cons_of_mem x member) fun e' => e ?_
        cases L with
        | nil => cases member
        | cons z L => rwa [List.getLast?_cons_cons] at e'
      · exact fun y member => same y (List.mem_cons_of_mem x member)

theorem Linked.at_ {A B : List α} {x : α} (linked : Linked prev next (A ++ x :: B)) :
    prev x = A.getLast? ∧ next x = B.head? := by
  obtain ⟨-, back, forth, -⟩ := (segment_append A (x :: B) none none).mp linked
  rw [Option.or_none] at back forth
  exact ⟨back, forth⟩

/-- **A node leaves the list**: its neighbours are linked to each other. -/
theorem Linked.unlink [DecidableEq α] {A B : List α} {x : α} (linked : Linked prev next (A ++ x :: B)) (nodup : (A ++ x :: B).Nodup)
    (left : ∀ y ∈ A, next' y = if A.getLast? = some y then B.head? else next y)
    (right : ∀ y ∈ B, prev' y = if B.head? = some y then A.getLast? else prev y)
    (keepLeft : ∀ y ∈ A, prev' y = prev y) (keepRight : ∀ y ∈ B, next' y = next y) :
    Linked prev' next' (A ++ B) := by
  obtain ⟨nodupA, nodupB, -⟩ := List.nodup_append.mp nodup
  obtain ⟨segA, -, -, segB⟩ := (segment_append A (x :: B) none none).mp linked
  rw [Linked, segment_append, Option.or_none, Option.or_none]
  constructor
  · refine segA.setAfter nodupA (fun y last => ?_) (fun y member other => ?_) keepLeft
    · rw [left y (List.mem_of_mem_getLast? last), if_pos last]
    · rw [left y member, if_neg other]
  · refine segB.setBefore (fun y first => ?_) (fun y member => ?_) keepRight
    · rw [right y (List.mem_of_mem_head? first), if_pos first]
    · rw [right y (List.mem_of_mem_tail member), if_neg]
      intro first
      cases B with
      | nil => cases member
      | cons z B =>
          obtain rfl := Option.some.inj first
          exact (List.nodup_cons.mp (List.nodup_cons.mp nodupB).2).1 member

/-- **A node enters the list.** -/
theorem Linked.insert [DecidableEq α] {A B : List α} {x : α} (linked : Linked prev next (A ++ B)) (nodup : (A ++ B).Nodup)
    (mine : prev' x = A.getLast? ∧ next' x = B.head?)
    (left : ∀ y ∈ A, next' y = if A.getLast? = some y then some x else next y)
    (right : ∀ y ∈ B, prev' y = if B.head? = some y then some x else prev y)
    (keepLeft : ∀ y ∈ A, prev' y = prev y) (keepRight : ∀ y ∈ B, next' y = next y) :
    Linked prev' next' (A ++ x :: B) := by
  obtain ⟨nodupA, nodupB, -⟩ := List.nodup_append.mp nodup
  obtain ⟨segA, segB⟩ := (segment_append A B none none).mp linked
  rw [Linked, segment_append, Option.or_none]
  refine ⟨?_, by rw [Option.or_none]; exact mine.1, by rw [Option.or_none]; exact mine.2, ?_⟩
  · refine segA.setAfter nodupA (fun y last => ?_) (fun y member other => ?_) keepLeft
    · rw [left y (List.mem_of_mem_getLast? last), if_pos last]
      rfl
    · rw [left y member, if_neg other]
  · refine segB.setBefore (fun y first => ?_) (fun y member => ?_) keepRight
    · rw [right y (List.mem_of_mem_head? first), if_pos first]
    · rw [right y (List.mem_of_mem_tail member), if_neg]
      intro first
      cases B with
      | nil => cases member
      | cons z B =>
          obtain rfl := Option.some.inj first
          exact (List.nodup_cons.mp nodupB).1 member

theorem Linked.congr {L : List α} (linked : Linked prev next L)
    (same : ∀ x ∈ L, prev' x = prev x ∧ next' x = next x) : Linked prev' next' L :=
  Segment.congr linked same

end Nova.Theory.Links
