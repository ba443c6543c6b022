/-
# Nova.Theory.Overlay — functions that are overwritten in parts

A layer gives new values to some of the arguments of a function.  Of several layers
the last one that says something about an argument decides (`overlay_cons`,
`overlay_append`); layers that agree are one layer (`overlay_agree`).
-/
import Mathlib.Algebra.GroupWithZero.Nat
import Mathlib.Logic.Basic

namespace Nova.Theory.Overlay

set_option autoImplicit false

variable {X V : Type}

/-- The value under the last layer that has one -/
def overlay (layers : List (X → Option V)) (base : X → V) (x : X) : V :=
  (layers.reverse.findSome? fun layer => layer x).getD (base x)

variable {layers : List (X → Option V)} {base : X → V} {x : X}

@[simp] theorem overlay_nil : overlay [] base = base := rfl

theorem overlay_congr {base' : X → V} (same : base x = base' x) : overlay layers base x = overlay layers base' x := by
  unfold overlay
  rw [same]

theorem overlay_append (lower upper : List (X → Option V)) :
    overlay (lower ++ upper) base = overlay upper (overlay lower base) := by
  funext x
  unfold overlay
  rw [List.reverse_append, List.findSome?_append]
  cases upper.reverse.findSome? fun layer => layer x with
  | none => rfl
  | some v => rfl

theorem overlay_cons (layer : X → Option V) :
    overlay (layer :: layers) base = overlay layers fun x => (layer x).getD (base x) := by
  have single : overlay [layer] base = fun x => (layer x).getD (base x) := by
    funext x
    simp only [overlay, List.reverse_singleton, List.findSome?_cons, List.findSome?_nil]
    cases layer x <;> rfl
  rw [← List.singleton_append, overlay_append, single]

/-- Layers that give the same value, if any -/
theorem overlay_agree {v : V} (agree : ∀ layer ∈ layers, ∀ v', layer x = some v' → v' = v)
    [Decidable (∃ layer ∈ layers, (layer x).isSome)] :
    overlay layers base x = if ∃ layer ∈ layers, (layer x).isSome then v else base x := by
  unfold overlay
  cases found : layers.reverse.findSome? fun layer => layer x with
  | none =>
      rw [if_neg]
      · rfl
      · rintro ⟨layer, member, some⟩
        rw [List.findSome?_eq_none_iff.mp found layer (List.mem_reverse.mpr member)] at some
        cases some
  | some v' =>
      obtain ⟨layer, member, is⟩ := List.exists_of_findSome?_eq_some found
      have member := List.mem_reverse.mp member
      rw [if_pos ⟨layer, member, by rw [is]; rfl⟩, agree layer member v' is]
      rfl

/-- What is computed from the values of the layers and of the base -/
theorem overlay_map {W : Type} (f : V → W) :
    overlay (layers.map fun layer x => (layer x).map f) (fun x => f (base x)) x = f (overlay layers base x) := by
  induction layers generalizing base with
  | nil => rfl
  | cons layer rest ih =>
      rw [List.map_cons, overlay_cons, overlay_cons, ← ih]
      refine overlay_congr ?_
      cases layer x <;> rfl

/-- A value of the overlay is one of the base or of a layer. -/
theorem overlay_origin (layers : List (X → Option V)) (base : X → V) (x : X) :
    overlay layers base x = base x ∨ ∃ layer ∈ layers, layer x = some (overlay layers base x) := by
  unfold overlay
  cases found : layers.reverse.findSome? fun layer => layer x with
  | none => exact .inl rfl
  | some v =>
      obtain ⟨layer, member, is⟩ := List.exists_of_findSome?_eq_some found
      exact .inr ⟨layer, List.mem_reverse.mp member, is⟩

end Nova.Theory.Overlay
