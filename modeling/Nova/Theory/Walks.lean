/-
# Nova.Theory.Walks — loops that advance by lengths read from the data

`walk` visits one entry after the other, from `a` until the limit, and moves on by what
the entry declares as its length.  Nothing bounds the number of rounds but the data, so
`none` is a walk that needs more fuel, and a walk that is `none` for every fuel does not
return.  `Tiled` says of the data that the walk returns with entries of which each is
`ok`: `walk_iff`.
-/
import Mathlib.Algebra.GroupWithZero.Nat
import Mathlib.Data.List.Basic

namespace Nova.Theory.Walks

set_option autoImplicit false

variable {V : Type*} {limit : Nat} {len : Nat → Nat} {body : Nat → Option (List V)}

/-- `for (; a < limit; a += len (a)) body (a)`, all visits in order -/
def walk (limit : Nat) (len : Nat → Nat) (body : Nat → Option (List V)) : Nat → Nat → Option (List V)
  | 0, _ => none
  | fuel + 1, a =>
      if a < limit then (body a).bind fun here => (walk limit len body fuel (a + len a)).map (here ++ ·)
      else some []

/-- From `a` to the limit there are consecutive non-empty entries, each of them `ok`. -/
inductive Tiled (limit : Nat) (len : Nat → Nat) (ok : Nat → Prop) : Nat → Prop where
  | done {a : Nat} (past : limit ≤ a) : Tiled limit len ok a
  | entry {a : Nat} (below : a < limit) (advances : 0 < len a) (this : ok a) (rest : Tiled limit len ok (a + len a)) :
      Tiled limit len ok a

theorem walk_past (body : Nat → Option (List V)) (fuel : Nat) {a : Nat} (past : limit ≤ a) :
    walk limit len body (fuel + 1) a = some [] := by
  rw [walk, if_neg (Nat.not_lt.mpr past)]

theorem walk_eq_some {fuel a : Nat} {vs : List V} (below : a < limit) :
    walk limit len body (fuel + 1) a = some vs ↔
      ∃ here rest, body a = some here ∧ walk limit len body fuel (a + len a) = some rest ∧ here ++ rest = vs := by
  rw [walk, if_pos below, Option.bind_eq_some_iff]
  simp only [Option.map_eq_some_iff]
  constructor
  · rintro ⟨here, is, rest, tail, sum⟩
    exact ⟨here, rest, is, tail, sum⟩
  · rintro ⟨here, rest, is, tail, sum⟩
    exact ⟨here, is, rest, tail, sum⟩

/-- An entry of length zero below the limit is visited again and again. -/
theorem walk_stuck {a : Nat} (below : a < limit) (stays : len a = 0) (fuel : Nat) : walk limit len body fuel a = none := by
  induction fuel with
  | zero => rfl
  | succ fuel ih =>
      rw [walk, if_pos below, stays, Nat.add_zero, ih]
      cases body a <;> rfl

theorem walk_more {body' : Nat → Option (List V)} (more : ∀ a vs, body a = some vs → body' a = some vs) {fuel : Nat} :
    ∀ {fuel' a : Nat} {vs : List V}, fuel ≤ fuel' → walk limit len body fuel a = some vs →
      walk limit len body' fuel' a = some vs := by
  induction fuel with
  | zero => intro _ _ _ _ returns; exact nomatch returns
  | succ fuel ih =>
      intro fuel' a vs enough returns
      obtain ⟨fuel', rfl⟩ : ∃ f, fuel' = f + 1 := ⟨fuel' - 1, by omega⟩
      by_cases below : a < limit
      · obtain ⟨here, rest, is, tail, sum⟩ := (walk_eq_some below).mp returns
        exact (walk_eq_some below).mpr ⟨here, rest, more a here is, ih (Nat.le_of_succ_le_succ enough) tail, sum⟩
      · rw [walk_past body fuel (Nat.not_lt.mp below)] at returns
        rw [walk_past body' fuel' (Nat.not_lt.mp below), returns]

/-! ## Walks that return with good visits -/

/-- With some fuel the computation returns, and every visit is `good`. -/
def Returns (f : Nat → Option (List V)) (good : V → Prop) : Prop := ∃ fuel vs, f fuel = some vs ∧ ∀ v ∈ vs, good v

theorem returns_some {vs : List V} {good : V → Prop} : Returns (fun _ => some vs) good ↔ ∀ v ∈ vs, good v := by
  constructor
  · rintro ⟨_, _, is, all⟩
    cases is
    exact all
  · exact fun all => ⟨0, vs, rfl, all⟩

/-- The visits are completed by others, which are good if `P`. -/
theorem returns_map {f : Nat → Option (List V)} {g : List V → List V} {good : V → Prop} {P : Prop}
    (splits : ∀ vs, (∀ v ∈ g vs, good v) ↔ P ∧ ∀ v ∈ vs, good v) :
    Returns (fun fuel => (f fuel).map g) good ↔ P ∧ Returns f good := by
  constructor
  · rintro ⟨fuel, _, is, all⟩
    obtain ⟨vs, returns, rfl⟩ := Option.map_eq_some_iff.mp is
    obtain ⟨others, these⟩ := (splits vs).mp all
    exact ⟨others, fuel, vs, returns, these⟩
  · rintro ⟨others, fuel, vs, returns, these⟩
    exact ⟨fuel, g vs, Option.map_eq_some_iff.mpr ⟨vs, returns, rfl⟩, (splits vs).mpr ⟨others, these⟩⟩

theorem Tiled.mono {ok ok' : Nat → Prop} (weaker : ∀ a, ok a → ok' a) {a : Nat} (tiled : Tiled limit len ok a) :
    Tiled limit len ok' a := by
  induction tiled with
  | done past => exact .done past
  | entry below advances this _ ih => exact .entry below advances (weaker _ this) ih

theorem Tiled.iff_of {ok ok' : Nat → Prop} (same : ∀ a, ok a ↔ ok' a) {a : Nat} :
    Tiled limit len ok a ↔ Tiled limit len ok' a :=
  ⟨Tiled.mono fun a => (same a).mp, Tiled.mono fun a => (same a).mpr⟩

section

variable {body : Nat → Nat → Option (List V)} {good : V → Prop}

theorem walk_tiled (b : Nat) {fuel : Nat} :
    ∀ {a : Nat} {vs : List V}, walk limit len (body b) fuel a = some vs → (∀ v ∈ vs, good v) →
      Tiled limit len (fun a => Returns (body · a) good) a := by
  induction fuel with
  | zero => intro _ _ returns _; exact nomatch returns
  | succ fuel ih =>
      intro a vs returns all
      by_cases below : a < limit
      · have advances : 0 < len a := by
          rcases Nat.eq_zero_or_pos (len a) with stays | advances
          · rw [walk_stuck below stays] at returns
            exact nomatch returns
          · exact advances
        obtain ⟨here, rest, is, tail, rfl⟩ := (walk_eq_some below).mp returns
        exact .entry below advances ⟨b, here, is, fun v mem => all v (List.mem_append_left rest mem)⟩
          (ih tail fun v mem => all v (List.mem_append_right here mem))
      · exact .done (Nat.not_lt.mp below)

/-- When does a walk whose rounds may be loops themselves return? -/
theorem walk_iff (mono : ∀ {fuel fuel' a vs}, fuel ≤ fuel' → body fuel a = some vs → body fuel' a = some vs) {a : Nat} :
    Returns (fun fuel => walk limit len (body fuel) fuel a) good ↔ Tiled limit len (fun a => Returns (body · a) good) a := by
  constructor
  · rintro ⟨fuel, vs, returns, all⟩
    exact walk_tiled fuel returns all
  · intro tiled
    induction tiled with
    | done past => exact ⟨1, [], walk_past _ 0 past, fun _ mem => nomatch mem⟩
    | entry below _ this _ ih =>
        obtain ⟨m, here, is, before⟩ := this
        obtain ⟨n, rest, tail, after⟩ := ih
        have left : m ≤ max m n + 1 := by omega
        have right : n ≤ max m n := by omega
        refine ⟨max m n + 1, here ++ rest, (walk_eq_some below).mpr ⟨here, rest, mono left is, ?_, rfl⟩, fun v mem => ?_⟩
        · exact walk_more (fun _ _ => mono (Nat.le_succ_of_le right)) right tail
        · rcases List.mem_append.mp mem with mem | mem
          · exact before v mem
          · exact after v mem

end

/-- When does a walk whose rounds always return? -/
theorem walk_some_iff {visits : Nat → List V} {good : V → Prop} {a : Nat} :
    Returns (fun fuel => walk limit len (fun a => some (visits a)) fuel a) good ↔
      Tiled limit len (fun a => ∀ v ∈ visits a, good v) a := by
  have constant : Returns (fun fuel => walk limit len (fun a => some (visits a)) fuel a) good ↔
      Tiled limit len (fun a => Returns (fun _ => some (visits a)) good) a :=
    @walk_iff V limit len (fun _ a => some (visits a)) good (fun _ is => is) a
  exact constant.trans (Tiled.iff_of fun _ => returns_some)

end Nova.Theory.Walks
