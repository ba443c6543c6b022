/-
# Nova.Theory.Tokens — the tokens of a line

A token is a maximal run of characters that are no separators.  The two rules follow a
scanner from left to right: a separator in front makes no difference
(`token_cons_sep`), and a maximal run in front is a token itself, with the tokens of
the rest (`token_append`).
-/
import Mathlib.Algebra.GroupWithZero.Nat
import Mathlib.Data.List.Basic

namespace Nova.Theory.Tokens

set_option autoImplicit false

variable {α : Type} {sep : α → Prop}

/-- `t` stands between `before` and `after`, and reaches as far as it can. -/
structure Run (sep : α → Prop) (before t after : List α) : Prop where
  any : t ≠ []
  clean : ∀ c ∈ t, ¬ sep c
  left : ∀ c, before.getLast? = some c → sep c
  right : ∀ c, after.head? = some c → sep c

def Token (sep : α → Prop) (line t : List α) : Prop :=
  ∃ before after, line = before ++ (t ++ after) ∧ Run sep before t after

theorem not_token_nil (t : List α) : ¬ Token sep [] t := by
  rintro ⟨before, after, nothing, run⟩
  exact run.any (List.append_eq_nil_iff.mp (List.append_eq_nil_iff.mp nothing.symm).2).1

/-- **A separator in front** -/
theorem token_cons_sep {c : α} {line t : List α} (isSep : sep c) : Token sep (c :: line) t ↔ Token sep line t := by
  constructor
  · rintro ⟨before, after, split, run⟩
    cases before with
    | nil =>
        obtain ⟨d, t, rfl⟩ := List.exists_cons_of_ne_nil run.any
        obtain rfl := (List.cons.inj split).1
        exact absurd isSep (run.clean c List.mem_cons_self)
    | cons d before =>
        obtain ⟨rfl, rest⟩ := List.cons.inj split
        refine ⟨before, after, rest, run.any, run.clean, fun e last => run.left e ?_, run.right⟩
        rw [List.getLast?_cons, last]
        rfl
  · rintro ⟨before, after, rfl, run⟩
    refine ⟨c :: before, after, rfl, run.any, run.clean, fun e last => ?_, run.right⟩
    rw [List.getLast?_cons] at last
    cases tail : before.getLast? with
    | none =>
        rw [tail] at last
        exact Option.some.inj last ▸ isSep
    | some d =>
        rw [tail] at last
        exact Option.some.inj last ▸ run.left d tail

/-- Two maximal runs in front of the same line are the same. -/
theorem run_unique {t w after rest : List α} (same : t ++ after = w ++ rest) (first : Run sep [] t after)
    (second : Run sep [] w rest) : t = w := by
  rcases List.append_eq_append_iff.mp same with ⟨x, rfl, rfl⟩ | ⟨x, rfl, rfl⟩
  · cases x with
    | nil => rw [List.append_nil]
    | cons c x =>
        have clean := second.clean c (List.mem_append_right t List.mem_cons_self)
        exact absurd (first.right c rfl) clean
  · cases x with
    | nil => rw [List.append_nil]
    | cons c x =>
        have clean := first.clean c (List.mem_append_right w List.mem_cons_self)
        exact absurd (second.right c rfl) clean

/-- **A maximal run in front** -/
theorem token_append {w rest t : List α} (front : Run sep [] w rest) :
    Token sep (w ++ rest) t ↔ t = w ∨ Token sep rest t := by
  constructor
  · rintro ⟨before, after, split, run⟩
    rcases List.append_eq_append_iff.mp split with ⟨x, rfl, later⟩ | ⟨x, rfl, later⟩
    · exact .inr ⟨x, after, later, run.any, run.clean, fun c last => run.left c (by rw [List.getLast?_append, last]; rfl),
        run.right⟩
    · -- `before` is a part of `w`, which has no separators
      cases before with
      | nil => exact .inl (run_unique split.symm ⟨run.any, run.clean, nofun, run.right⟩ front)
      | cons d before =>
          have last : (d :: before).getLast? = some (before.getLast?.getD d) := List.getLast?_cons
          have member := List.mem_append_left x (List.mem_of_getLast? last)
          exact absurd (run.left _ last) (front.clean _ member)
  · rintro (rfl | ⟨before, after, rfl, run⟩)
    · exact ⟨[], rest, rfl, front.any, front.clean, nofun, front.right⟩
    · refine ⟨w ++ before, after, (List.append_assoc ..).symm, run.any, run.clean, fun c last => ?_, run.right⟩
      cases before with
      | nil =>
          obtain ⟨d, t, rfl⟩ := List.exists_cons_of_ne_nil run.any
          exact absurd (front.right d rfl) (run.clean d List.mem_cons_self)
      | cons d before =>
          rw [List.getLast?_append, List.getLast?_cons] at last
          exact run.left c (by rw [List.getLast?_cons]; exact last)

end Nova.Theory.Tokens
