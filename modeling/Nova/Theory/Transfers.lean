/-
# Nova.Theory.Transfers — messages that carry selected items

A message has a mask, and its receiver goes through a table of items: each has its bit of
the mask and a change of the state, which is made if the bit is set.  A part of the state
is what some function `view` reads of it.

* `transfer_frame`: a part that only unselected items change is left alone.
* `transfer_own`: a part with one item has what that item makes of it, whatever the
  others do before and after.
* `Exchange`: two tables for messages in opposite directions, with `save_load` and `load_save`.
-/
import Mathlib.Algebra.GroupWithZero.Nat
import Mathlib.Logic.Basic

namespace Nova.Theory.Transfers

set_option autoImplicit false

variable {S V : Type} {n : Nat}

/-- One item of a message with the mask `m` -/
def take (m : BitVec n) (s : S) (i : BitVec n × (S → S)) : S := if m &&& i.1 ≠ 0#n then i.2 s else s

def transfer (m : BitVec n) (table : List (BitVec n × (S → S))) (s : S) : S := table.foldl (take m) s

variable {m k : BitVec n} {table : List (BitVec n × (S → S))} {view : S → V} {s : S}

theorem take_selected {i : BitVec n × (S → S)} (on : m &&& i.1 ≠ 0#n) : take m s i = i.2 s := if_pos on

theorem take_unselected {i : BitVec n × (S → S)} (off : m &&& i.1 = 0#n) : take m s i = s := if_neg (not_not.mpr off)

theorem transfer_keeps {P : S → Prop} (keeps : ∀ i ∈ table, ∀ s, P s → P (i.2 s)) (holds : P s) : P (transfer m table s) := by
  unfold transfer
  induction table generalizing s with
  | nil => exact holds
  | cons i rest ih =>
      rw [List.foldl_cons]
      apply ih fun j member => keeps j (List.mem_cons_of_mem i member)
      unfold take
      split
      · exact keeps i List.mem_cons_self s holds
      · exact holds

/-- Every item outside `k` leaves the part alone. -/
def Frames (table : List (BitVec n × (S → S))) (view : S → V) (k : BitVec n) : Prop :=
  ∀ i ∈ table, i.1 &&& k = i.1 ∨ ∀ s, view (i.2 s) = view s

theorem transfer_frame (frames : Frames table view k) (off : m &&& k = 0#n) : view (transfer m table s) = view s := by
  unfold transfer
  induction table generalizing s with
  | nil => rfl
  | cons i rest ih =>
      rw [List.foldl_cons, ih fun j member => frames j (List.mem_cons_of_mem i member)]
      rcases frames i List.mem_cons_self with inside | keeps
      · have unselected : m &&& i.1 = 0#n := by
          rw [← inside, BitVec.and_comm i.1, ← BitVec.and_assoc, off, BitVec.zero_and]
        rw [take_unselected unselected]
      · unfold take
        split
        · exact keeps s
        · rfl

/-- Where only two items concern a part, the message does to it what the two do, one after the other. -/
theorem transfer_two {a b : BitVec n × (S → S)} {before between after : List (BitVec n × (S → S))}
    (split : table = before ++ a :: (between ++ b :: after))
    (plain : ∀ i ∈ before ++ (between ++ after), ∀ s, view (i.2 s) = view s)
    (congr_a : ∀ s t, view s = view t → view (a.2 s) = view (a.2 t))
    (congr_b : ∀ s t, view s = view t → view (b.2 s) = view (b.2 t)) :
    view (transfer m table s) = view (take m (take m s a) b) := by
  have skip (l : List (BitVec n × (S → S))) (part : ∀ i ∈ l, i ∈ before ++ (between ++ after)) (t : S) :
      view (transfer m l t) = view t :=
    transfer_keeps (P := fun s => view s = view t) (fun i member s same => (plain i (part i member) s).trans same) rfl
  have item {i : BitVec n × (S → S)} (congr : ∀ s t, view s = view t → view (i.2 s) = view (i.2 t)) {s t : S}
      (same : view s = view t) : view (take m s i) = view (take m t i) := by
    unfold take
    split
    · exact congr s t same
    · exact same
  subst split
  unfold transfer
  rw [List.foldl_append, List.foldl_cons, List.foldl_append, List.foldl_cons]
  refine (skip after (fun i member => List.mem_append_right _ (List.mem_append_right _ member)) _).trans (item congr_b ?_)
  refine (skip between (fun i member => List.mem_append_right _ (List.mem_append_left _ member)) _).trans (item congr_a ?_)
  exact skip before (fun i member => List.mem_append_left _ member) s

/-- Only the item with the bit `k` changes the part; where `I` holds, it makes `w` of it. -/
def Owns (table : List (BitVec n × (S → S))) (view : S → V) (k : BitVec n) (I : S → Prop) (w : V) : Prop :=
  ∀ i ∈ table, (i.1 = k ∧ ∀ s, I s → view (i.2 s) = w) ∨ (i.1 ≠ k ∧ ∀ s, view (i.2 s) = view s)

theorem Owns.frames {I : S → Prop} {w : V} (owns : Owns table view k I w) : Frames table view k := by
  intro i member
  rcases owns i member with ⟨rfl, -⟩ | ⟨-, keeps⟩
  · exact Or.inl BitVec.and_self
  · exact Or.inr keeps

theorem transfer_own {I : S → Prop} {w : V} (owns : Owns table view k I w) (stays : ∀ i ∈ table, ∀ s, I s → I (i.2 s))
    (item : ∃ i ∈ table, i.1 = k) (on : m &&& k ≠ 0#n) (start : I s) : view (transfer m table s) = w := by
  unfold transfer
  induction table generalizing s with
  | nil =>
      obtain ⟨i, none, -⟩ := item
      cases none
  | cons i rest ih =>
      have owns' : Owns rest view k I w := fun j member => owns j (List.mem_cons_of_mem i member)
      have stays' : ∀ j ∈ rest, ∀ s, I s → I (j.2 s) := fun j member => stays j (List.mem_cons_of_mem i member)
      have next : I (take m s i) := by
        unfold take
        split
        · exact stays i List.mem_cons_self s start
        · exact start
      rw [List.foldl_cons]
      by_cases later : ∃ j ∈ rest, j.1 = k
      · exact ih owns' stays' later next
      · -- the item itself: no later one changes the part
        have own : i.1 = k := by
          obtain ⟨j, member, same⟩ := item
          rcases List.mem_cons.mp member with rfl | member
          · exact same
          · exact absurd ⟨j, member, same⟩ later
        have after : ∀ s : S, view (rest.foldl (take m) s) = view s := by
          intro s
          refine transfer_keeps (P := fun t => view t = view s) (fun j member t same => ?_) rfl
          rcases owns' j member with ⟨its, -⟩ | ⟨-, keeps⟩
          · exact absurd ⟨j, member, its⟩ later
          · rw [keeps t, same]
        rw [after, take_selected (own ▸ on)]
        rcases owns i List.mem_cons_self with ⟨-, makes⟩ | ⟨other, -⟩
        · exact makes s start
        · exact absurd own other

/-! ## There and back -/

/-- Messages that carry parts of a state `S` to a store `U` (`loads`) and back (`saves`).  What a transfer makes of a
part depends on what `env` reads of the state, which no message changes. -/
structure Exchange (n : Nat) (S U P E : Type) where
  Data : P → Type
  State : P → Type
  env : S → E
  saves : U → List (BitVec n × (S → S))
  loads : S → List (BitVec n × (U → U))
  mask : P → BitVec n
  field : (p : P) → U → Data p
  view : (p : P) → S → State p
  put : (p : P) → E → Data p → State p
  get : (p : P) → E → State p → Data p
  constrain : (p : P) → Data p → Data p
  save_env : ∀ u, ∀ i ∈ saves u, ∀ s, env (i.2 s) = env s
  save_own : ∀ p u e, Owns (saves u) (view p) (mask p) (fun s => env s = e) (put p e (field p u))
  save_item : ∀ p u, ∃ i ∈ saves u, i.1 = mask p
  load_own : ∀ p s, Owns (loads s) (field p) (mask p) (fun _ => True) (get p (env s) (view p s))
  load_item : ∀ p s, ∃ i ∈ loads s, i.1 = mask p
  get_put : ∀ p e d, get p e (put p e d) = constrain p d
  put_constrain : ∀ p e d, put p e (constrain p d) = put p e d

namespace Exchange

variable {S U P E : Type} {n : Nat} (x : Exchange n S U P E) {m : BitVec n} {s : S} {u : U} {p : P}

theorem env_save : x.env (transfer m (x.saves u) s) = x.env s :=
  transfer_keeps (P := fun t => x.env t = x.env s) (fun i member t same => (x.save_env u i member t).trans same) rfl

theorem view_save (on : m &&& x.mask p ≠ 0#n) :
    x.view p (transfer m (x.saves u) s) = x.put p (x.env s) (x.field p u) :=
  transfer_own (x.save_own p u (x.env s)) (fun i member t same => (x.save_env u i member t).trans same)
    (x.save_item p u) on rfl

theorem field_load (on : m &&& x.mask p ≠ 0#n) :
    x.field p (transfer m (x.loads s) u) = x.get p (x.env s) (x.view p s) :=
  transfer_own (x.load_own p s) (fun _ _ _ _ => trivial) (x.load_item p s) on trivial

theorem view_unselected (off : m &&& x.mask p = 0#n) : x.view p (transfer m (x.saves u) s) = x.view p s :=
  transfer_frame (x.save_own p u (x.env s)).frames off

theorem field_unselected (off : m &&& x.mask p = 0#n) : x.field p (transfer m (x.loads s) u) = x.field p u :=
  transfer_frame (x.load_own p s).frames off

/-- **Saving, then loading** gives what was saved, as far as it is not constrained. -/
theorem save_load (on : m &&& x.mask p ≠ 0#n) (v : U) :
    x.field p (transfer m (x.loads (transfer m (x.saves u) s)) v) = x.constrain p (x.field p u) := by
  rw [field_load x on, env_save, view_save x on, get_put]

/-- **Loading, then saving** what was loaded changes no part that holds a value which can be saved. -/
theorem load_save (valid : m &&& x.mask p ≠ 0#n → ∃ d, x.view p s = x.put p (x.env s) d) :
    x.view p (transfer m (x.saves (transfer m (x.loads s) u)) s) = x.view p s := by
  by_cases on : m &&& x.mask p = 0#n
  · exact view_unselected x on
  · obtain ⟨d, is⟩ := valid on
    rw [view_save x on, field_load x on, is, get_put, put_constrain]

end Exchange

end Nova.Theory.Transfers
