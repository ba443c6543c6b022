/-
# Nova.Theory.Chunks — binary buddies

A chunk of order `k` is a run of `2^k` consecutive pages that starts at a multiple
of `2^k`.  Two chunks that share a page are nested; the buddy of a chunk is the
other half of the chunk of the next order.  A tiling is a set of chunks that
covers a range, every page once; halving a chunk and joining two buddies keep it.

`mem_free_iff`: in a tiling by free and used chunks without two free buddies the
free chunks are exactly the largest chunks that meet no used one, so they are
determined by the used ones.
-/
import Mathlib.Algebra.GroupWithZero.Nat
import Mathlib.Data.Nat.Bitwise
import Mathlib.Data.Set.Insert
import Mathlib.Tactic.Ring

namespace Nova.Theory.Chunks

set_option autoImplicit false

structure Chunk where
  base : Nat
  order : Nat
  deriving DecidableEq

namespace Chunk

def Aligned (c : Chunk) : Prop := 2 ^ c.order ∣ c.base

def Covers (c : Chunk) (p : Nat) : Prop := c.base ≤ p ∧ p < c.base + 2 ^ c.order

/-- The other half of the chunk of the next order -/
def buddy (c : Chunk) : Chunk := ⟨c.base ^^^ 2 ^ c.order, c.order⟩

theorem covers_base (c : Chunk) : c.Covers c.base := by
  have := Nat.two_pow_pos c.order
  exact ⟨le_refl _, by omega⟩

end Chunk

/-! ## Arithmetic of aligned numbers -/

theorem add_le_of_dvd {u x y : Nat} (hx : u ∣ x) (hy : u ∣ y) (lt : x < y) : x + u ≤ y := by
  obtain ⟨a, rfl⟩ := hx
  obtain ⟨b, rfl⟩ := hy
  have below : a < b := Nat.lt_of_mul_lt_mul_left lt
  calc u * a + u = u * (a + 1) := by ring
    _ ≤ u * b := Nat.mul_le_mul_left u below

theorem dvd_of_succ {k x : Nat} (h : 2 ^ (k + 1) ∣ x) : 2 ^ k ∣ x :=
  dvd_trans (Nat.pow_dvd_pow 2 (Nat.le_succ k)) h

/-- The upper half is aligned to its own order and to no more. -/
theorem half_aligned {k x : Nat} (h : 2 ^ (k + 1) ∣ x) : 2 ^ k ∣ x + 2 ^ k ∧ ¬ 2 ^ (k + 1) ∣ x + 2 ^ k := by
  refine ⟨Nat.dvd_add (dvd_of_succ h) (dvd_refl _), fun more => ?_⟩
  have : 2 ^ (k + 1) ∣ 2 ^ k := (Nat.dvd_add_right h).mp more
  have := Nat.le_of_dvd (Nat.two_pow_pos k) this
  have := Nat.two_pow_pos k
  rw [Nat.pow_succ] at *
  omega

theorem xor_lower {k x : Nat} (h : 2 ^ (k + 1) ∣ x) : x ^^^ 2 ^ k = x + 2 ^ k := by
  obtain ⟨q, rfl⟩ := h
  have small : 2 ^ k < 2 ^ (k + 1) := Nat.pow_lt_pow_right (by decide) (Nat.lt_succ_self k)
  rw [Nat.two_pow_add_eq_or_of_lt small]
  apply Nat.eq_of_testBit_eq
  intro i
  rw [Nat.testBit_xor, Nat.testBit_or, Nat.testBit_two_pow]
  by_cases here : k = i
  · subst here
    have clear : (2 ^ (k + 1) * q).testBit k = false := by
      rw [Nat.testBit_two_pow_mul]
      simp
    simp [clear]
  · simp [here]

theorem upper_cases {k x : Nat} (h : 2 ^ k ∣ x) (odd : ¬ 2 ^ (k + 1) ∣ x) :
    2 ^ k ≤ x ∧ 2 ^ (k + 1) ∣ x - 2 ^ k := by
  obtain ⟨q, rfl⟩ := h
  rcases Nat.even_or_odd' q with ⟨r, rfl | rfl⟩
  · exact absurd ⟨r, by ring⟩ odd
  · have e : 2 ^ k * (2 * r + 1) = 2 ^ (k + 1) * r + 2 ^ k := by ring
    rw [e]
    exact ⟨Nat.le_add_left _ _, by rw [Nat.add_sub_cancel]; exact dvd_mul_right _ _⟩

theorem xor_upper {k x : Nat} (h : 2 ^ k ∣ x) (odd : ¬ 2 ^ (k + 1) ∣ x) : x ^^^ 2 ^ k = x - 2 ^ k := by
  obtain ⟨le, even⟩ := upper_cases h odd
  have lower := xor_lower even
  rw [Nat.sub_add_cancel le] at lower
  rw [← lower, Nat.xor_assoc, Nat.xor_self, Nat.xor_zero]
  omega

namespace Chunk

/-- **Chunks that share a page are nested.** -/
theorem nested {c d : Chunk} (hc : c.Aligned) (hd : d.Aligned) (le : c.order ≤ d.order) {p : Nat}
    (inC : c.Covers p) (inD : d.Covers p) :
    d.base ≤ c.base ∧ c.base + 2 ^ c.order ≤ d.base + 2 ^ d.order := by
  have unit : 2 ^ c.order ∣ 2 ^ d.order := Nat.pow_dvd_pow 2 le
  have lower : 2 ^ c.order ∣ d.base := dvd_trans unit hd
  refine ⟨?_, add_le_of_dvd hc (Nat.dvd_add lower unit) (lt_of_le_of_lt inC.1 inD.2)⟩
  by_contra before
  have := add_le_of_dvd hc lower (Nat.lt_of_not_le before)
  exact absurd inC.2 (by have := inD.1; omega)

theorem Covers.of_nested {c d : Chunk} {p : Nat} (low : d.base ≤ c.base)
    (high : c.base + 2 ^ c.order ≤ d.base + 2 ^ d.order) (inC : c.Covers p) : d.Covers p :=
  ⟨le_trans low inC.1, lt_of_lt_of_le inC.2 high⟩

/-- Of one order, chunks that share a page are the same. -/
theorem eq_of_covers {c d : Chunk} (hc : c.Aligned) (hd : d.Aligned) (same : c.order = d.order) {p : Nat}
    (inC : c.Covers p) (inD : d.Covers p) : c = d := by
  have down := nested hc hd (le_of_eq same) inC inD
  have up := nested hd hc (le_of_eq same.symm) inD inC
  cases c
  cases d
  simp only [mk.injEq]
  exact ⟨le_antisymm up.1 down.1, same⟩

theorem covers_halves {x k p : Nat} :
    (⟨x, k + 1⟩ : Chunk).Covers p ↔ (⟨x, k⟩ : Chunk).Covers p ∨ (⟨x + 2 ^ k, k⟩ : Chunk).Covers p := by
  simp only [Covers, Nat.pow_succ]
  omega

theorem buddy_lower {x k : Nat} (h : 2 ^ (k + 1) ∣ x) : (⟨x, k⟩ : Chunk).buddy = ⟨x + 2 ^ k, k⟩ := by
  rw [buddy, xor_lower h]

theorem buddy_buddy (c : Chunk) : c.buddy.buddy = c := by
  simp [buddy]

/-- A chunk and its buddy are the halves of a chunk of the next order. -/
theorem buddy_cases {c : Chunk} (aligned : c.Aligned) :
    ∃ x, 2 ^ (c.order + 1) ∣ x ∧
      ((c = ⟨x, c.order⟩ ∧ c.buddy = ⟨x + 2 ^ c.order, c.order⟩) ∨
        (c = ⟨x + 2 ^ c.order, c.order⟩ ∧ c.buddy = ⟨x, c.order⟩)) := by
  by_cases even : 2 ^ (c.order + 1) ∣ c.base
  · exact ⟨c.base, even, Or.inl ⟨rfl, buddy_lower even⟩⟩
  · obtain ⟨le, lower⟩ := upper_cases aligned even
    refine ⟨c.base - 2 ^ c.order, lower, Or.inr ⟨?_, ?_⟩⟩
    · rw [Nat.sub_add_cancel le]
    · rw [buddy, xor_upper aligned even]

theorem buddy_aligned {c : Chunk} (aligned : c.Aligned) : c.buddy.Aligned := by
  obtain ⟨x, even, ⟨-, other⟩ | ⟨-, other⟩⟩ := buddy_cases aligned
  · rw [other]
    exact (half_aligned even).1
  · rw [other]
    exact dvd_of_succ even

/-- A larger chunk that meets the buddy contains the chunk. -/
theorem covers_of_buddy {c d : Chunk} (hc : c.Aligned) (hd : d.Aligned) (larger : c.order < d.order) {p : Nat}
    (inBuddy : c.buddy.Covers p) (inD : d.Covers p) : d.Covers c.base := by
  obtain ⟨x, even, halves⟩ := buddy_cases hc
  have inWhole : (⟨x, c.order + 1⟩ : Chunk).Covers p := by
    rcases halves with ⟨-, other⟩ | ⟨-, other⟩
    · exact covers_halves.mpr (Or.inr (other ▸ inBuddy))
    · exact covers_halves.mpr (Or.inl (other ▸ inBuddy))
  have whole := nested (c := ⟨x, c.order + 1⟩) (d := d) even hd larger inWhole inD
  refine Covers.of_nested whole.1 whole.2 ?_
  rcases halves with ⟨mine, -⟩ | ⟨mine, -⟩
  · exact covers_halves.mpr (Or.inl (mine ▸ c.covers_base))
  · exact covers_halves.mpr (Or.inr (mine ▸ c.covers_base))

end Chunk

/-! ## Tilings -/

/-- The chunks of `C` cover the pages from `lo` to `hi`, each page once. -/
structure Tiling (C : Set Chunk) (lo hi : Nat) : Prop where
  aligned : ∀ c ∈ C, c.Aligned
  inside : ∀ c ∈ C, lo ≤ c.base ∧ c.base + 2 ^ c.order ≤ hi
  disjoint : ∀ c ∈ C, ∀ d ∈ C, ∀ p, c.Covers p → d.Covers p → c = d
  cover : ∀ p, lo ≤ p → p < hi → ∃ c ∈ C, c.Covers p

namespace Tiling

variable {C D : Set Chunk} {lo hi x k : Nat}

/-- Exchange some chunks for others that cover the same pages. -/
theorem exchange (tiling : Tiling C lo hi) {old new : Set Chunk} (part : old ⊆ C)
    (aligned : ∀ c ∈ new, c.Aligned)
    (disjoint : ∀ c ∈ new, ∀ d ∈ new, ∀ p, c.Covers p → d.Covers p → c = d)
    (within : ∀ c ∈ new, ∀ p, c.Covers p → ∃ d ∈ old, d.Covers p)
    (cover : ∀ c ∈ old, ∀ p, c.Covers p → ∃ d ∈ new, d.Covers p)
    (result : ∀ c, c ∈ D ↔ (c ∈ C ∧ c ∉ old) ∨ c ∈ new) : Tiling D lo hi := by
  have apart : ∀ c ∈ C, c ∉ old → ∀ d ∈ new, ∀ p, c.Covers p → d.Covers p → False := by
    intro c inC kept d inNew p inc ind
    obtain ⟨e, inOld, ine⟩ := within d inNew p ind
    exact kept (tiling.disjoint c inC e (part inOld) p inc ine ▸ inOld)
  refine ⟨fun c member => ?_, fun c member => ?_, fun c hc d hd p inc ind => ?_, fun p low high => ?_⟩
  · rcases (result c).mp member with ⟨inC, -⟩ | inNew
    · exact tiling.aligned c inC
    · exact aligned c inNew
  · rcases (result c).mp member with ⟨inC, -⟩ | inNew
    · exact tiling.inside c inC
    · have pos := Nat.two_pow_pos c.order
      obtain ⟨d, inOld, ind⟩ := within c inNew c.base c.covers_base
      obtain ⟨e, inOld', ine⟩ := within c inNew (c.base + 2 ^ c.order - 1) ⟨by omega, by omega⟩
      have := (tiling.inside d (part inOld)).1
      have := (tiling.inside e (part inOld')).2
      have := ind.1
      have := ine.2
      omega
  · rcases (result c).mp hc with ⟨inC, kept⟩ | inNew
    · rcases (result d).mp hd with ⟨inC', kept'⟩ | inNew'
      · exact tiling.disjoint c inC d inC' p inc ind
      · exact absurd ind fun ind => apart c inC kept d inNew' p inc ind
    · rcases (result d).mp hd with ⟨inC', kept'⟩ | inNew'
      · exact absurd inc fun inc => apart d inC' kept' c inNew p ind inc
      · exact disjoint c inNew d inNew' p inc ind
  · obtain ⟨c, inC, inc⟩ := tiling.cover p low high
    by_cases gone : c ∈ old
    · obtain ⟨d, inNew, ind⟩ := cover c gone p inc
      exact ⟨d, (result d).mpr (Or.inr inNew), ind⟩
    · exact ⟨c, (result c).mpr (Or.inl ⟨inC, gone⟩), inc⟩

theorem halves_disjoint (even : 2 ^ (k + 1) ∣ x) :
    ∀ c ∈ ({⟨x, k⟩, ⟨x + 2 ^ k, k⟩} : Set Chunk), ∀ d ∈ ({⟨x, k⟩, ⟨x + 2 ^ k, k⟩} : Set Chunk),
      ∀ p, c.Covers p → d.Covers p → c = d := by
  intro c hc d hd p inc ind
  have aligned : ∀ c ∈ ({⟨x, k⟩, ⟨x + 2 ^ k, k⟩} : Set Chunk), c.Aligned ∧ c.order = k := by
    rintro c (rfl | rfl)
    · exact ⟨dvd_of_succ even, rfl⟩
    · exact ⟨(half_aligned even).1, rfl⟩
  exact Chunk.eq_of_covers (aligned c hc).1 (aligned d hd).1 ((aligned c hc).2.trans (aligned d hd).2.symm) inc ind

/-- Halving a chunk -/
theorem split (tiling : Tiling C lo hi) (member : (⟨x, k + 1⟩ : Chunk) ∈ C)
    (result : ∀ c, c ∈ D ↔ (c ∈ C ∧ c ≠ ⟨x, k + 1⟩) ∨ c = ⟨x, k⟩ ∨ c = ⟨x + 2 ^ k, k⟩) : Tiling D lo hi := by
  have even : 2 ^ (k + 1) ∣ x := tiling.aligned _ member
  have part : {⟨x, k + 1⟩} ⊆ C := Set.singleton_subset_iff.mpr member
  refine tiling.exchange part ?_ (halves_disjoint even) ?_ ?_ result
  · rintro c (rfl | rfl)
    · exact dvd_of_succ even
    · exact (half_aligned even).1
  · rintro c (rfl | rfl) p inc
    · exact ⟨_, rfl, Chunk.covers_halves.mpr (Or.inl inc)⟩
    · exact ⟨_, rfl, Chunk.covers_halves.mpr (Or.inr inc)⟩
  · rintro c rfl p inc
    rcases Chunk.covers_halves.mp inc with lower | upper
    · exact ⟨_, Or.inl rfl, lower⟩
    · exact ⟨_, Or.inr rfl, upper⟩

/-- Joining two buddies -/
theorem join (tiling : Tiling C lo hi) (even : 2 ^ (k + 1) ∣ x) (lower : (⟨x, k⟩ : Chunk) ∈ C)
    (upper : (⟨x + 2 ^ k, k⟩ : Chunk) ∈ C)
    (result : ∀ c, c ∈ D ↔ (c ∈ C ∧ c ≠ ⟨x, k⟩ ∧ c ≠ ⟨x + 2 ^ k, k⟩) ∨ c = ⟨x, k + 1⟩) : Tiling D lo hi := by
  refine @exchange _ _ _ _ tiling {⟨x, k⟩, ⟨x + 2 ^ k, k⟩} {⟨x, k + 1⟩} ?_ ?_ ?_ ?_ ?_ ?_
  · rintro c (rfl | rfl)
    · exact lower
    · exact upper
  · rintro c rfl
    exact even
  · rintro c rfl d rfl p - -
    rfl
  · rintro c rfl p inc
    rcases Chunk.covers_halves.mp inc with inLower | inUpper
    · exact ⟨_, Or.inl rfl, inLower⟩
    · exact ⟨_, Or.inr rfl, inUpper⟩
  · rintro c (rfl | rfl) p inc
    · exact ⟨_, rfl, Chunk.covers_halves.mpr (Or.inl inc)⟩
    · exact ⟨_, rfl, Chunk.covers_halves.mpr (Or.inr inc)⟩
  · intro c
    rw [result]
    simp only [Set.mem_insert_iff, Set.mem_singleton_iff, not_or]

theorem congr (tiling : Tiling C lo hi) (same : ∀ c, c ∈ D ↔ c ∈ C) : Tiling D lo hi :=
  (Set.ext same : D = C) ▸ tiling

end Tiling

/-! ## The free chunks are determined by the used ones -/

section Canonical

variable {F U : Set Chunk} {lo hi top : Nat}

/-- All pages of the chunk are in the range and in no used chunk. -/
def Clear (U : Set Chunk) (lo hi : Nat) (c : Chunk) : Prop :=
  ∀ p, c.Covers p → lo ≤ p ∧ p < hi ∧ ∀ u ∈ U, ¬ u.Covers p

/-- No two free buddies below the largest order -/
def Coalesced (F : Set Chunk) (top : Nat) : Prop := ∀ c ∈ F, c.order < top → c.buddy ∉ F

variable (tiling : Tiling (F ∪ U) lo hi) (apart : ∀ c ∈ F, c ∉ U) (coalesced : Coalesced F top)
include tiling

theorem free_of_clear {c : Chunk} (clear : Clear U lo hi c) {p : Nat} (inc : c.Covers p) :
    ∃ f ∈ F, f.Covers p := by
  obtain ⟨low, high, unused⟩ := clear p inc
  obtain ⟨f, member, inf⟩ := tiling.cover p low high
  rcases member with free | used
  · exact ⟨f, free, inf⟩
  · exact absurd inf (unused f used)

include coalesced

/-- A clear chunk that no larger free chunk meets is free: otherwise its halves were,
by induction, and they are buddies. -/
theorem free_of_largest :
    ∀ (k : Nat) (d : Chunk), d.order = k → k ≤ top → d.Aligned → Clear U lo hi d →
      (∀ f ∈ F, ∀ p, f.Covers p → d.Covers p → f.order ≤ k) → d ∈ F := by
  intro k
  induction k with
  | zero =>
      intro d order _ aligned clear largest
      obtain ⟨f, free, inf⟩ := free_of_clear tiling clear d.covers_base
      have small := largest f free _ inf d.covers_base
      have same := Chunk.eq_of_covers (tiling.aligned f (Or.inl free)) aligned (by omega) inf d.covers_base
      exact same ▸ free
  | succ k ih =>
      intro d order le aligned clear largest
      by_contra missing
      obtain ⟨x, o⟩ := d
      obtain rfl : o = k + 1 := order
      have even : 2 ^ (k + 1) ∣ x := aligned
      have half : ∀ h : Chunk, h.order = k → h.Aligned → (∀ p, h.Covers p → (⟨x, k + 1⟩ : Chunk).Covers p) → h ∈ F := by
        intro h order' aligned' within
        refine ih h order' (by omega) aligned' (fun p inh => clear p (within p inh)) fun f free p inf inh => ?_
        have bound := largest f free p inf (within p inh)
        by_contra large
        have same := Chunk.eq_of_covers (tiling.aligned f (Or.inl free)) aligned
          (show f.order = k + 1 by omega) inf (within p inh)
        exact missing (same ▸ free)
      have lower := half ⟨x, k⟩ rfl (dvd_of_succ even) fun p inh => Chunk.covers_halves.mpr (Or.inl inh)
      have upper := half ⟨x + 2 ^ k, k⟩ rfl (half_aligned even).1 fun p inh => Chunk.covers_halves.mpr (Or.inr inh)
      refine coalesced _ lower (show k < top by omega) ?_
      rw [Chunk.buddy_lower even]
      exact upper

include apart

/-- **The free chunks are the clear chunks whose buddy is not clear**, or of the largest
order. -/
theorem mem_free_iff (bounded : ∀ c ∈ F, c.order ≤ top) (c : Chunk) :
    c ∈ F ↔ c.Aligned ∧ c.order ≤ top ∧ Clear U lo hi c ∧ (c.order < top → ¬ Clear U lo hi c.buddy) := by
  have clear_free : ∀ f ∈ F, Clear U lo hi f := by
    intro f free p inf
    have inside := tiling.inside f (Or.inl free)
    refine ⟨le_trans inside.1 inf.1, lt_of_lt_of_le inf.2 inside.2, fun u used inu => ?_⟩
    exact apart f free (tiling.disjoint f (Or.inl free) u (Or.inr used) p inf inu ▸ used)
  constructor
  · intro free
    have aligned := tiling.aligned c (Or.inl free)
    refine ⟨aligned, bounded c free, clear_free c free, fun below clear => coalesced c free below ?_⟩
    refine free_of_largest tiling coalesced c.order c.buddy rfl (bounded c free) (Chunk.buddy_aligned aligned) clear
      fun f free' p inf inb => ?_
    by_contra larger
    have inside := Chunk.covers_of_buddy aligned (tiling.aligned f (Or.inl free')) (by omega) inb inf
    have same := tiling.disjoint f (Or.inl free') c (Or.inl free) c.base inside c.covers_base
    subst same
    omega
  · rintro ⟨aligned, le, clear, largest⟩
    refine free_of_largest tiling coalesced c.order c rfl le aligned clear fun f free p inf inc => ?_
    by_contra larger
    have bound := bounded f free
    refine largest (by omega) fun q inb => clear_free f free q ?_
    -- a larger free chunk contains the chunk and its buddy
    have base := Chunk.nested aligned (tiling.aligned f (Or.inl free)) (by omega) inc inf
    have inBuddy : c.buddy.buddy.Covers c.base := by
      rw [Chunk.buddy_buddy]
      exact c.covers_base
    have inF : f.Covers c.base := Chunk.Covers.of_nested base.1 base.2 c.covers_base
    have low := Chunk.covers_of_buddy (Chunk.buddy_aligned aligned) (tiling.aligned f (Or.inl free))
      (show c.order < f.order by omega) inBuddy inF
    have whole := Chunk.nested (Chunk.buddy_aligned aligned) (tiling.aligned f (Or.inl free))
      (show c.order ≤ f.order by omega) c.buddy.covers_base low
    exact Chunk.Covers.of_nested whole.1 whole.2 inb

end Canonical

/-! ## Chunks one after the other -/

/-- The chunks follow one another from `lo` to `hi`. -/
def Contiguous : List Chunk → Nat → Nat → Prop
  | [], lo, hi => lo = hi
  | c :: rest, lo, hi => c.base = lo ∧ Contiguous rest (lo + 2 ^ c.order) hi

namespace Contiguous

theorem le {cs : List Chunk} {lo hi : Nat} (follow : Contiguous cs lo hi) : lo ≤ hi := by
  induction cs generalizing lo with
  | nil => exact Nat.le_of_eq follow
  | cons c rest ih => exact Nat.le_trans (Nat.le_add_right _ _) (ih follow.2)

theorem inside {cs : List Chunk} {lo hi : Nat} (follow : Contiguous cs lo hi) :
    ∀ c ∈ cs, lo ≤ c.base ∧ c.base + 2 ^ c.order ≤ hi := by
  induction cs generalizing lo with
  | nil => exact fun c none => nomatch none
  | cons d rest ih =>
      intro c member
      obtain ⟨start, later⟩ := follow
      rcases List.mem_cons.mp member with rfl | member
      · rw [start]
        exact ⟨Nat.le_refl _, later.le⟩
      · obtain ⟨low, high⟩ := ih later c member
        exact ⟨Nat.le_trans (Nat.le_add_right _ _) low, high⟩

/-- They tile the range, each of them once. -/
theorem tiling {cs : List Chunk} {lo hi : Nat} (follow : Contiguous cs lo hi) (aligned : ∀ c ∈ cs, c.Aligned) :
    Tiling (fun c => c ∈ cs) lo hi ∧ cs.Nodup := by
  induction cs generalizing lo with
  | nil =>
      obtain rfl : lo = hi := follow
      refine ⟨⟨aligned, fun c none => (nomatch none), fun c none => (nomatch none), fun p low high => ?_⟩, List.nodup_nil⟩
      exact absurd high (Nat.not_lt.mpr low)
  | cons d rest ih =>
      obtain ⟨tiling, nodup⟩ := ih follow.2 fun c member => aligned c (List.mem_cons_of_mem _ member)
      have inside := follow.inside
      obtain ⟨rfl, later⟩ := follow
      -- a later chunk does not meet the first one
      have apart : ∀ c ∈ rest, ∀ p, d.Covers p → ¬ c.Covers p := by
        intro c member p ind inc
        exact absurd (Nat.lt_of_lt_of_le ind.2 (later.inside c member).1) (Nat.not_lt.mpr inc.1)
      refine ⟨⟨aligned, inside, ?_, fun p low high => ?_⟩, List.nodup_cons.mpr ⟨fun member => ?_, nodup⟩⟩
      · intro c hc e he p inc ine
        rcases List.mem_cons.mp hc with rfl | late <;> rcases List.mem_cons.mp he with rfl | late'
        · rfl
        · exact absurd ine (apart e late' p inc)
        · exact absurd inc (apart c late p ine)
        · exact tiling.disjoint c late e late' p inc ine
      · by_cases first : p < d.base + 2 ^ d.order
        · exact ⟨d, List.mem_cons_self, low, first⟩
        · obtain ⟨c, member, covers⟩ := tiling.cover p (Nat.not_lt.mp first) high
          exact ⟨c, List.mem_cons_of_mem _ member, covers⟩
      · exact apart d member d.base d.covers_base d.covers_base

end Contiguous

end Nova.Theory.Chunks
