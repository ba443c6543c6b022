/-
# Nova.Theory.Rings — circular doubly linked lists

A ring is a list whose two ends are linked to each other.  No node of it is special:
`Ring.rotate` says that the list may be cut anywhere, so that insertion and removal
need to be understood at one place only, in front of the first node.  `Ring.insert`
and `Ring.remove` say which two pointers outside the node itself have to change.
-/
import Nova.Theory.Links

namespace Nova.Theory.Rings

open Nova.Theory.Links

set_option autoImplicit false

variable {α : Type} {prev next prev' next' : α → Option α}

/-- The nodes of a ring, from some node on -/
def Ring (prev next : α → Option α) (L : List α) : Prop := Segment prev next L.getLast? L L.head?

theorem ring_nil : Ring prev next [] := trivial

theorem ring_singleton {x : α} : Ring prev next [x] ↔ prev x = some x ∧ next x = some x := by
  simp [Ring, Segment]

/-- The pointers around the first node -/
theorem ring_cons {x : α} {L : List α} (any : L ≠ []) :
    Ring prev next (x :: L) ↔ prev x = L.getLast? ∧ next x = L.head? ∧ Segment prev next (some x) L (some x) := by
  obtain ⟨y, L, rfl⟩ := List.exists_cons_of_ne_nil any
  rw [Ring, List.getLast?_cons_cons, List.head?_cons, Segment, List.head?_cons, Option.some_or]

theorem Ring.first {x : α} {L : List α} (ring : Ring prev next (x :: L)) :
    prev x = (x :: L).getLast? ∧ next x = L.head?.or (some x) :=
  ⟨ring.1, ring.2.1⟩

/-- **A ring may be cut anywhere.** -/
theorem Ring.rotate {A B : List α} (ring : Ring prev next (A ++ B)) : Ring prev next (B ++ A) := by
  cases A with
  | nil => rwa [List.append_nil]
  | cons x A =>
      cases B with
      | nil => rwa [List.append_nil] at ring
      | cons y B =>
          rw [Ring, segment_append] at ring ⊢
          obtain ⟨first, second⟩ := ring
          rw [List.getLast?_append, List.head?_append] at *
          constructor
          · simpa [List.getLast?_cons] using second
          · simpa [List.getLast?_cons] using first

section Ends

variable [DecidableEq α]

/-- Other neighbours at both ends -/
theorem setEnds {L : List α} {before after before' after' : Option α} (nodup : L.Nodup)
    (segment : Segment prev next before L after)
    (back : ∀ y ∈ L, prev' y = if L.head? = some y then before' else prev y)
    (forth : ∀ y ∈ L, next' y = if L.getLast? = some y then after' else next y) : Segment prev' next' before' L after' := by
  -- the two ends are changed one after the other
  have first : Segment prev' next before' L after := by
    refine segment.setBefore (fun y head => ?_) (fun y member => ?_) fun _ _ => rfl
    · rw [back y (List.mem_of_mem_head? head), if_pos head]
    · rw [back y (List.mem_of_mem_tail member), if_neg]
      intro head
      cases L with
      | nil => cases member
      | cons z L =>
          obtain rfl := Option.some.inj head
          exact (List.nodup_cons.mp nodup).1 member
  refine first.setAfter nodup (fun y last => ?_) (fun y member other => ?_) fun _ _ => rfl
  · rw [forth y (List.mem_of_mem_getLast? last), if_pos last]
  · rw [forth y member, if_neg other]

/-- **A node enters the ring** between its last and its first node. -/
theorem Ring.insert {x : α} {L : List α} (ring : Ring prev next L) (nodup : L.Nodup) (any : L ≠ [])
    (mine : prev' x = L.getLast? ∧ next' x = L.head?)
    (back : ∀ y ∈ L, prev' y = if L.head? = some y then some x else prev y)
    (forth : ∀ y ∈ L, next' y = if L.getLast? = some y then some x else next y) : Ring prev' next' (x :: L) :=
  (ring_cons any).mpr ⟨mine.1, mine.2, setEnds nodup ring back forth⟩

/-- **The first node leaves the ring.** -/
theorem Ring.remove {x : α} {L : List α} (ring : Ring prev next (x :: L)) (nodup : L.Nodup) (any : L ≠ [])
    (back : ∀ y ∈ L, prev' y = if next x = some y then prev x else prev y)
    (forth : ∀ y ∈ L, next' y = if prev x = some y then next x else next y) : Ring prev' next' L := by
  obtain ⟨last, first, segment⟩ := (ring_cons any).mp ring
  rw [last, first] at back forth
  exact setEnds nodup segment back forth

end Ends

theorem Ring.congr {L : List α} (ring : Ring prev next L) (same : ∀ x ∈ L, prev' x = prev x ∧ next' x = next x) :
    Ring prev' next' L :=
  Segment.congr ring same

end Nova.Theory.Rings
