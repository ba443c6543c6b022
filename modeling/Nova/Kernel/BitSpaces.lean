/-
# Nova.Kernel.BitSpaces — I/O ports and model-specific registers

`Space_pio` of `src/x86_64/space_pio.cpp` and `Space_msr` of `src/x86_64/space_msr.cpp`,
with their bitmaps.  A set bit denies an access.  The bitmap of ports has one bit for
a port; the one of MSRs has four parts, for reading and writing and for the low and the
high range of MSRs.  An access outside of a part is `none`.

The two kinds of spaces delegate in the same way, which is `Ops.delegate`.  `Lawful`
is what their `lookup` and `update` have in common, and that a range whose last
selector is valid is valid as a whole if its base is aligned; `bit_delegate` is the
result for both.
-/
import Nova.Theory.Bitmaps
import Nova.Kernel.ObjDelegate

namespace Nova.Kernel.BitSpaces

open Nova.Theory.Words
open Nova.Theory.Bitmaps

set_option autoImplicit false

/-- `Paging::R` -/
def permR : Perm := 1#32

/-- `Paging::W` -/
def permW : Perm := 2#32

/-- `8 * sizeof (uintptr_t)` -/
abbrev bits : Nat := 64

/-- `sel_bmask` -/
def selBmask (s : Word) : Word := bitn (s.toNat % bits)

/-! ## Delegation -/

/-- What a space of ports and one of MSRs have in common -/
structure Ops (S : Type) where
  valid : Word → Bool
  lookup : Word → S → Option Perm
  update : Word → Perm → S → Option S

namespace Ops

variable {S I : Type} [DecidableEq I] (ops : Ops S)

/-- The loop of `delegate`, for `k` more selectors -/
def copy (src dst : I) (pmm : Perm) : Nat → Word → (I → S) → Option (I → S)
  | 0, _, m => some m
  | k + 1, s, m =>
      (ops.lookup s (m src)).bind fun p =>
        (ops.update s (p &&& pmm) (m dst)).bind fun x => copy src dst pmm k (s + 1#64) (Function.update m dst x)

def delegate (src dst : I) (ssb dsb : Word) (ord : Nat) (pmm : Perm) (m : I → S) : Option (Status × (I → S)) :=
  let e := ssb + bitn ord
  if ssb ≠ dsb ∨ ops.valid (e - 1#64) = false then some (.badPar, m)
  else (ops.copy src dst pmm (e.toNat - ssb.toNat) ssb m).map fun m => (.success, m)

end Ops

/-! ## Ports -/

/-- `Bitmap_pio` -/
structure BitmapPio where
  io : Bitmap 1024

namespace BitmapPio

abbrev sels : Nat := 2 ^ 16

def selValid (s : Word) : Bool := s.toNat < sels

def index (s : Word) : Nat := s.toNat % sels / bits

def clr (s : Word) (b : BitmapPio) : Option BitmapPio :=
  (modify b.io (index s) fun w => w &&& ~~~ selBmask s).map fun io => { io }

def set (s : Word) (b : BitmapPio) : Option BitmapPio :=
  (modify b.io (index s) fun w => w ||| selBmask s).map fun io => { io }

def tst (s : Word) (b : BitmapPio) : Option Bool := (word b.io (index s)).map fun w => w &&& selBmask s ≠ 0#64

end BitmapPio

namespace SpacePio

/-- `Space_pio::lookup` -/
def lookup (s : Word) (b : BitmapPio) : Option Perm :=
  if BitmapPio.selValid s then (b.tst s).map fun t => if t then 0#32 else permR else some 0#32

/-- `Space_pio::update` -/
def update (s : Word) (p : Perm) (b : BitmapPio) : Option BitmapPio :=
  if BitmapPio.selValid s then if p &&& permR ≠ 0#32 then b.clr s else b.set s else some b

def ops : Ops BitmapPio := ⟨BitmapPio.selValid, lookup, update⟩

/-- `Space_pio::delegate` -/
def delegate {I : Type} [DecidableEq I] (pio this : I) (ssb dsb : Word) (ord : Nat) (pmm : Perm) (m : I → BitmapPio) :
    Option (Status × (I → BitmapPio)) :=
  ops.delegate pio this ssb dsb ord pmm m

end SpacePio

/-! ## Model-specific registers -/

/-- `Bitmap_msr` -/
structure BitmapMsr where
  rLo : Bitmap 128
  rHi : Bitmap 128
  wLo : Bitmap 128
  wHi : Bitmap 128

namespace BitmapMsr

abbrev sels : Nat := 2 ^ 13

def selValid (s : Word) : Bool := s.toNat < sels || (0xc0000000 ≤ s.toNat && s.toNat < 0xc0000000 + sels)

def index (s : Word) : Nat := s.toNat % sels / bits

/-- The part that `sel_to_bmp_r` selects -/
def r (b : BitmapMsr) (s : Word) : Bitmap 128 := if s.toNat < sels then b.rLo else b.rHi

/-- The part that `sel_to_bmp_w` selects -/
def w (b : BitmapMsr) (s : Word) : Bitmap 128 := if s.toNat < sels then b.wLo else b.wHi

def putR (b : BitmapMsr) (s : Word) (m : Bitmap 128) : BitmapMsr :=
  if s.toNat < sels then { b with rLo := m } else { b with rHi := m }

def putW (b : BitmapMsr) (s : Word) (m : Bitmap 128) : BitmapMsr :=
  if s.toNat < sels then { b with wLo := m } else { b with wHi := m }

def clrR (s : Word) (b : BitmapMsr) : Option BitmapMsr :=
  (modify (b.r s) (index s) fun w => w &&& ~~~ selBmask s).map (b.putR s)

def setR (s : Word) (b : BitmapMsr) : Option BitmapMsr :=
  (modify (b.r s) (index s) fun w => w ||| selBmask s).map (b.putR s)

def tstR (s : Word) (b : BitmapMsr) : Option Bool := (word (b.r s) (index s)).map fun w => w &&& selBmask s ≠ 0#64

def clrW (s : Word) (b : BitmapMsr) : Option BitmapMsr :=
  (modify (b.w s) (index s) fun w => w &&& ~~~ selBmask s).map (b.putW s)

def setW (s : Word) (b : BitmapMsr) : Option BitmapMsr :=
  (modify (b.w s) (index s) fun w => w ||| selBmask s).map (b.putW s)

def tstW (s : Word) (b : BitmapMsr) : Option Bool := (word (b.w s) (index s)).map fun w => w &&& selBmask s ≠ 0#64

end BitmapMsr

namespace SpaceMsr

/-- `Space_msr::lookup` -/
def lookup (s : Word) (b : BitmapMsr) : Option Perm :=
  if BitmapMsr.selValid s then
    (b.tstW s).bind fun tw => (b.tstR s).map fun tr => (if tw then 0#32 else permW) ||| (if tr then 0#32 else permR)
  else some 0#32

/-- `Space_msr::update` -/
def update (s : Word) (p : Perm) (b : BitmapMsr) : Option BitmapMsr :=
  if BitmapMsr.selValid s then
    (if p &&& permW ≠ 0#32 then b.clrW s else b.setW s).bind fun b =>
      if p &&& permR ≠ 0#32 then b.clrR s else b.setR s
  else some b

def ops : Ops BitmapMsr := ⟨BitmapMsr.selValid, lookup, update⟩

/-- `Space_msr::delegate` -/
def delegate {I : Type} [DecidableEq I] (msr this : I) (ssb dsb : Word) (ord : Nat) (pmm : Perm) (m : I → BitmapMsr) :
    Option (Status × (I → BitmapMsr)) :=
  ops.delegate msr this ssb dsb ord pmm m

end SpaceMsr

/-! ## What delegation does -/

/-- The last selector of an aligned range, which may be the last one at all -/
theorem toNat_last {ssb : Word} {ord : Nat} (small : ord < 32) (base : ssb.toNat % 2 ^ ord = 0) :
    (ssb + bitn ord - 1#64).toNat = ssb.toNat + (2 ^ ord - 1) := by
  have positive : 0 < 2 ^ ord := Nat.two_pow_pos ord
  have below := ssb.isLt
  have fits : ssb.toNat + 2 ^ ord ≤ 2 ^ 64 := by
    obtain ⟨c, multiple⟩ := Nat.dvd_of_mod_eq_zero base
    obtain ⟨d, whole⟩ : 2 ^ ord ∣ 2 ^ 64 := Nat.pow_dvd_pow 2 (by omega)
    rw [multiple, whole] at below
    have less : c < d := Nat.lt_of_mul_lt_mul_left below
    calc ssb.toNat + 2 ^ ord = 2 ^ ord * (c + 1) := by rw [multiple, Nat.mul_succ]
      _ ≤ 2 ^ ord * d := Nat.mul_le_mul_left _ less
      _ = 2 ^ 64 := whole.symm
  rw [BitVec.toNat_sub, BitVec.toNat_add, ObjSpaces.toNat_bitn (by omega), BitVec.toNat_ofNat]
  generalize 2 ^ ord = size at *
  omega

namespace Ops

variable {S I : Type}

/-- The permissions at a selector -/
def perm (ops : Ops S) (x : S) (s : Word) : Perm := (ops.lookup s x).getD 0#32

/-- The bitmap has a place for every selector, and a selector that is valid has one of its own;
`all` are the permissions of this kind of space. -/
structure Lawful (ops : Ops S) (all : Perm) : Prop where
  lookup : ∀ s x, ops.lookup s x = some (ops.perm x s)
  update : ∀ s p x, ∃ x', ops.update s p x = some x' ∧
    ∀ t, ops.perm x' t = if t = s ∧ ops.valid s = true then p &&& all else ops.perm x t
  within : ∀ x s, (ops.perm x s).Le all
  range : ∀ ssb ord, ord < 32 → ssb.toNat % 2 ^ ord = 0 → ops.valid (ssb + bitn ord - 1#64) = true →
    ssb.toNat + 2 ^ ord < 2 ^ 64 ∧ ∀ s : Word, ssb.toNat ≤ s.toNat → s.toNat < ssb.toNat + 2 ^ ord → ops.valid s = true

/-- What `delegate` returns and leaves behind -/
structure Delegated (ops : Ops S) (src dst : I) (ssb dsb : Word) (ord : Nat) (pmm : Perm) (m : I → S) (status : Status)
    (m' : I → S) : Prop where
  outcome : status = .success ∨ status = .badPar
  /-- Refused are a range that would move and one with a selector that is not valid, no others. -/
  refused : status = .badPar ↔
    ssb ≠ dsb ∨ ∃ s : Word, ssb.toNat ≤ s.toNat ∧ s.toNat < ssb.toNat + 2 ^ ord ∧ ops.valid s = false
  failed : status = .badPar → m' = m
  done : status = .success → ∀ s, ops.perm (m' dst) s =
    if ssb.toNat ≤ s.toNat ∧ s.toNat < ssb.toNat + 2 ^ ord then ops.perm (m src) s &&& pmm else ops.perm (m dst) s
  others : ∀ i, i ≠ dst → m' i = m i
  /-- No permission that neither the source nor the destination had -/
  bounded : ∀ s, (ops.perm (m' dst) s).Le (ops.perm (m dst) s ||| ops.perm (m src) s)
  /-- All accesses are inside the bitmaps. -/
  inside : ∀ i s, ops.lookup s (m' i) = some (ops.perm (m' i) s)

namespace Lawful

variable [DecidableEq I] {ops : Ops S} {all : Perm}

theorem copy (lawful : ops.Lawful all) (src dst : I) (pmm : Perm) (k : Nat) :
    ∀ (s : Word) (m : I → S), s.toNat + k < 2 ^ 64 →
      (∀ t : Word, s.toNat ≤ t.toNat → t.toNat < s.toNat + k → ops.valid t = true) →
      ∃ m', ops.copy src dst pmm k s m = some m' ∧ (∀ i, i ≠ dst → m' i = m i) ∧
        ∀ t : Word, ops.perm (m' dst) t =
          if s.toNat ≤ t.toNat ∧ t.toNat < s.toNat + k then ops.perm (m src) t &&& pmm else ops.perm (m dst) t := by
  induction k with
  | zero =>
      intro s m _ _
      refine ⟨m, rfl, fun _ _ => rfl, fun t => ?_⟩
      rw [if_neg (by omega)]
  | succ k ih =>
      intro s m noWrap valid
      obtain ⟨x, updated, at_⟩ := lawful.update s (ops.perm (m src) s &&& pmm) (m dst)
      have next : (s + 1#64).toNat = s.toNat + 1 := by
        rw [BitVec.toNat_add, BitVec.toNat_ofNat]
        omega
      obtain ⟨m', rest, others, later⟩ := ih (s + 1#64) (Function.update m dst x) (by omega) fun t low high =>
        valid t (by omega) (by omega)
      refine ⟨m', ?_, fun i other => ?_, fun t => ?_⟩
      · rw [Ops.copy, lawful.lookup, Option.bind_some, updated, Option.bind_some, rest]
      · rw [others i other, Function.update_of_ne other]
      · have here : ops.valid s = true := valid s (Nat.le_refl _) (by omega)
        rw [later, next, Function.update_self, at_]
        simp only [here, and_true]
        by_cases first : t = s
        · subst first
          rw [if_neg (by omega), if_pos rfl, if_pos (by omega)]
          rw [BitVec.and_assoc, BitVec.and_comm pmm, ← BitVec.and_assoc, lawful.within (m src) t]
        · have apart : t.toNat ≠ s.toNat := fun same => first (BitVec.eq_of_toNat_eq same)
          -- the source at a later selector is as before, also if it is the destination
          have source : ops.perm (Function.update m dst x src) t = ops.perm (m src) t := by
            by_cases same : src = dst
            · rw [same, Function.update_self, at_, if_neg fun both => first both.1]
            · rw [Function.update_of_ne same]
          rw [source, if_neg first]
          by_cases inside : s.toNat + 1 ≤ t.toNat ∧ t.toNat < s.toNat + 1 + k
          · rw [if_pos inside, if_pos (by omega)]
          · rw [if_neg inside, if_neg (by omega)]

theorem and_le_or (a b pmm : Perm) : (a &&& pmm).Le (b ||| a) := by
  unfold Perm.Le
  apply BitVec.eq_of_getLsbD_eq
  intro i _
  rw [BitVec.getLsbD_and, BitVec.getLsbD_and, BitVec.getLsbD_or]
  cases a.getLsbD i <;> simp

theorem le_or (a b : Perm) : a.Le (a ||| b) := by
  unfold Perm.Le
  apply BitVec.eq_of_getLsbD_eq
  intro i _
  rw [BitVec.getLsbD_and, BitVec.getLsbD_or]
  cases a.getLsbD i <;> simp

/-- `delegate` tests the last selector of the range for all of them. -/
theorem last_iff (lawful : ops.Lawful all) {ssb : Word} {ord : Nat} (small : ord < 32) (base : ssb.toNat % 2 ^ ord = 0) :
    ops.valid (ssb + bitn ord - 1#64) = false ↔
      ∃ s : Word, ssb.toNat ≤ s.toNat ∧ s.toNat < ssb.toNat + 2 ^ ord ∧ ops.valid s = false := by
  constructor
  · intro invalid
    have positive : 0 < 2 ^ ord := Nat.two_pow_pos ord
    have at_ := toNat_last small base
    exact ⟨ssb + bitn ord - 1#64, by omega, by omega, invalid⟩
  · rintro ⟨s, low, high, invalid⟩
    by_contra valid
    have all := (lawful.range ssb ord small base (Bool.not_eq_false _ |>.mp valid)).2 s low high
    exact absurd (all.symm.trans invalid) (by decide)

/-- **Delegation** between any two spaces of one kind, also from a space to itself -/
theorem delegate (lawful : ops.Lawful all) (src dst : I) {ssb dsb : Word} {ord : Nat} (small : ord < 32)
    (aligned : (ssb ||| dsb) &&& (bitn ord - 1#64) = 0#64) (pmm : Perm) (m : I → S) :
    ∃ status m', ops.delegate src dst ssb dsb ord pmm m = some (status, m') ∧
      ops.Delegated src dst ssb dsb ord pmm m status m' := by
  have base := (ObjSpaces.bases_of_aligned (by omega) aligned).1
  have refused := or_congr_right (a := ssb ≠ dsb) (lawful.last_iff small base)
  by_cases bad : ssb ≠ dsb ∨ ops.valid (ssb + bitn ord - 1#64) = false
  · refine ⟨.badPar, m, by rw [Ops.delegate, if_pos bad], .inr rfl, ⟨fun _ => refused.mp bad, fun _ => rfl⟩, fun _ => rfl, nofun,
      fun _ _ => rfl, fun s => ?_, ?_⟩
    · exact le_or _ _
    · exact fun i s => lawful.lookup s (m i)
  · have last : ops.valid (ssb + bitn ord - 1#64) = true := by
      rw [← Bool.not_eq_false]
      exact fun invalid => bad (.inr invalid)
    obtain ⟨noWrap, valid⟩ := lawful.range ssb ord small base last
    have rounds : (ssb + bitn ord).toNat - ssb.toNat = 2 ^ ord := by
      rw [BitVec.toNat_add, ObjSpaces.toNat_bitn (by omega), Nat.mod_eq_of_lt noWrap, Nat.add_sub_cancel_left]
    obtain ⟨m', done, others, at_⟩ := lawful.copy src dst pmm (2 ^ ord) ssb m noWrap valid
    refine ⟨.success, m', by rw [Ops.delegate, if_neg bad]; simp only [rounds, done, Option.map_some], .inl rfl,
      ⟨nofun, fun is => absurd (refused.mpr is) bad⟩, nofun, fun _ => at_, others, fun s => ?_, fun i s => lawful.lookup s (m' i)⟩
    rw [at_]
    split
    · exact and_le_or _ _ _
    · exact le_or _ _

end Lawful

end Ops

/-! ## The two kinds of spaces -/

/-- A permission of one bit is there or not. -/
theorem and_bit (p : Perm) (i : Nat) :
    p &&& BitVec.twoPow 32 i = if p &&& BitVec.twoPow 32 i = 0#32 then 0#32 else BitVec.twoPow 32 i := by
  rw [BitVec.and_twoPow]
  cases p.getLsbD i <;> simp

/-- What a bit of a bitmap stands for -/
def allow (valid denied : Bool) (p : Perm) : Perm := if valid = true ∧ denied = false then p else 0#32

theorem allow_self (p : Perm) (i : Nat) :
    allow true (decide (p &&& BitVec.twoPow 32 i = 0#32)) (BitVec.twoPow 32 i) = p &&& BitVec.twoPow 32 i := by
  by_cases nothing : p &&& BitVec.twoPow 32 i = 0#32
  · simp [allow, nothing]
  · have value := and_bit p i
    rw [if_neg nothing] at value
    rw [allow, if_pos ⟨rfl, decide_eq_false nothing⟩, value]

theorem allow_le (valid denied : Bool) (p : Perm) : (allow valid denied p).Le p := by
  unfold allow
  split
  · exact Perm.Le.refl p
  · exact BitVec.zero_and

namespace BitmapPio

/-- Bit `s` of the bitmap says whether the port is denied. -/
def denied (b : BitmapPio) (s : Word) : Bool := bit b.io (s.toNat % sels)

theorem index_lt (s : Word) : s.toNat % sels / bits < 1024 := Nat.div_lt_of_lt_mul (Nat.mod_lt _ (by decide))

theorem selBmask_eq (s : Word) : selBmask s = 1#64 <<< (s.toNat % sels % 64) := by
  rw [selBmask, bitn, Nat.mod_mod_of_dvd s.toNat (by decide : 64 ∣ sels)]

theorem tst_eq (s : Word) (b : BitmapPio) : b.tst s = some (b.denied s) := by
  unfold tst
  rw [selBmask_eq]
  exact word_eq (index_lt s)

/-- A valid selector has a bit of its own. -/
theorem own {s t : Word} (validS : selValid s = true) (validT : selValid t = true) :
    t.toNat % sels = s.toNat % sels ↔ t = s := by
  have smallS : s.toNat < sels := of_decide_eq_true validS
  have smallT : t.toNat < sels := of_decide_eq_true validT
  rw [Nat.mod_eq_of_lt smallS, Nat.mod_eq_of_lt smallT, BitVec.toNat_inj]

theorem clr_spec {s : Word} (valid : selValid s = true) (b : BitmapPio) :
    ∃ b', b.clr s = some b' ∧ ∀ t, selValid t = true → b'.denied t = if t = s then false else b.denied t := by
  obtain ⟨io, done, at_⟩ := modify_clear (m := b.io) (index_lt s)
  refine ⟨⟨io⟩, by rw [clr, selBmask_eq, index, done, Option.map_some], fun t validT => ?_⟩
  simp only [denied, at_, own valid validT]

theorem set_spec {s : Word} (valid : selValid s = true) (b : BitmapPio) :
    ∃ b', b.set s = some b' ∧ ∀ t, selValid t = true → b'.denied t = if t = s then true else b.denied t := by
  obtain ⟨io, done, at_⟩ := modify_set (m := b.io) (index_lt s)
  refine ⟨⟨io⟩, by rw [set, selBmask_eq, index, done, Option.map_some], fun t validT => ?_⟩
  simp only [denied, at_, own valid validT]

end BitmapPio

namespace SpacePio

theorem lookup_eq (s : Word) (b : BitmapPio) : lookup s b = some (allow (ops.valid s) (b.denied s) permR) := by
  show lookup s b = some (allow (BitmapPio.selValid s) (b.denied s) permR)
  unfold lookup
  rw [BitmapPio.tst_eq]
  cases BitmapPio.selValid s <;> cases b.denied s <;> rfl

theorem perm_eq (b : BitmapPio) (s : Word) : ops.perm b s = allow (ops.valid s) (b.denied s) permR := by
  rw [Ops.perm, show ops.lookup s b = _ from lookup_eq s b, Option.getD_some]

theorem update_spec (s : Word) (p : Perm) (b : BitmapPio) :
    ∃ b', update s p b = some b' ∧ ∀ t, ops.valid t = true →
      b'.denied t = if t = s ∧ ops.valid s = true then decide (p &&& permR = 0#32) else b.denied t := by
  unfold update
  by_cases valid : BitmapPio.selValid s = true
  · have valid' : ops.valid s = true := valid
    rw [if_pos valid]
    simp only [valid', and_true]
    by_cases allowed : p &&& permR ≠ 0#32
    · rw [if_pos allowed, decide_eq_false allowed]
      exact BitmapPio.clr_spec valid b
    · rw [if_neg allowed, decide_eq_true (not_not.mp allowed)]
      exact BitmapPio.set_spec valid b
  · rw [if_neg valid]
    exact ⟨b, rfl, fun t _ => by rw [if_neg fun both => valid both.2]⟩

theorem lawful : ops.Lawful permR := by
  refine ⟨fun s b => ?_, fun s p b => ?_, fun b s => ?_, fun ssb ord small base last => ?_⟩
  · rw [perm_eq]
    exact lookup_eq s b
  · obtain ⟨b', done, at_⟩ := update_spec s p b
    refine ⟨b', done, fun t => ?_⟩
    rw [perm_eq, perm_eq]
    by_cases valid : ops.valid t = true
    · rw [at_ t valid]
      by_cases here : t = s ∧ ops.valid s = true
      · rw [if_pos here, if_pos here, valid]
        exact allow_self p 0
      · rw [if_neg here, if_neg here]
    · have other : ¬ (t = s ∧ ops.valid s = true) := fun here => valid (here.1 ▸ here.2)
      rw [if_neg other, allow, allow, if_neg fun both => valid both.1, if_neg fun both => valid both.1]
  · rw [perm_eq]
    exact allow_le _ _ _
  · have last : (ssb + bitn ord - 1#64).toNat < 65536 := of_decide_eq_true last
    rw [toNat_last small base] at last
    have positive : 0 < 2 ^ ord := Nat.two_pow_pos ord
    refine ⟨by omega, fun s _ high => decide_eq_true (show s.toNat < 65536 from ?_)⟩
    omega

end SpacePio

namespace BitmapMsr

def deniedR (b : BitmapMsr) (s : Word) : Bool := bit (b.r s) (s.toNat % sels)

def deniedW (b : BitmapMsr) (s : Word) : Bool := bit (b.w s) (s.toNat % sels)

theorem index_lt (s : Word) : s.toNat % sels / bits < 128 := Nat.div_lt_of_lt_mul (Nat.mod_lt _ (by decide))

theorem selBmask_eq (s : Word) : selBmask s = 1#64 <<< (s.toNat % sels % 64) := by
  rw [selBmask, bitn, Nat.mod_mod_of_dvd s.toNat (by decide : 64 ∣ sels)]

theorem tstR_eq (s : Word) (b : BitmapMsr) : b.tstR s = some (b.deniedR s) := by
  unfold tstR
  rw [selBmask_eq]
  exact word_eq (index_lt s)

theorem tstW_eq (s : Word) (b : BitmapMsr) : b.tstW s = some (b.deniedW s) := by
  unfold tstW
  rw [selBmask_eq]
  exact word_eq (index_lt s)

theorem selValid_iff (s : Word) : selValid s = true ↔ s.toNat < 8192 ∨ 3221225472 ≤ s.toNat ∧ s.toNat < 3221233664 := by
  simp only [selValid, Bool.or_eq_true, Bool.and_eq_true, decide_eq_true_eq]
  exact Iff.rfl

/-- A valid selector has a bit of its own in its part. -/
theorem own {s t : Word} (validS : selValid s = true) (validT : selValid t = true)
    (part : s.toNat < sels ↔ t.toNat < sels) : t.toNat % sels = s.toNat % sels ↔ t = s := by
  rw [selValid_iff] at validS validT
  rw [← BitVec.toNat_inj]
  change s.toNat < 8192 ↔ t.toNat < 8192 at part
  show t.toNat % 8192 = s.toNat % 8192 ↔ _
  omega

theorem r_putR (b : BitmapMsr) (s t : Word) (m : Bitmap 128) :
    (b.putR s m).r t = if s.toNat < sels ↔ t.toNat < sels then m else b.r t := by
  by_cases loS : s.toNat < sels <;> by_cases loT : t.toNat < sels <;> simp [putR, r, loS, loT]

theorem w_putW (b : BitmapMsr) (s t : Word) (m : Bitmap 128) :
    (b.putW s m).w t = if s.toNat < sels ↔ t.toNat < sels then m else b.w t := by
  by_cases loS : s.toNat < sels <;> by_cases loT : t.toNat < sels <;> simp [putW, w, loS, loT]

/-- The parts for writing are not those for reading. -/
theorem deniedW_putR (b : BitmapMsr) (s t : Word) (m : Bitmap 128) : (b.putR s m).deniedW t = b.deniedW t := by
  have same : (b.putR s m).w t = b.w t := by
    by_cases lo : s.toNat < sels <;> simp [putR, w, lo]
  rw [deniedW, same, deniedW]

theorem deniedR_putW (b : BitmapMsr) (s t : Word) (m : Bitmap 128) : (b.putW s m).deniedR t = b.deniedR t := by
  have same : (b.putW s m).r t = b.r t := by
    by_cases lo : s.toNat < sels <;> simp [putW, r, lo]
  rw [deniedR, same, deniedR]

section Change

variable {s t : Word} {b : BitmapMsr} {m : Bitmap 128} {v : Bool}

/-- One bit has changed in the part that `s` selects for reading. -/
theorem deniedR_putR (validS : selValid s = true) (validT : selValid t = true)
    (at_ : ∀ c, bit m c = if c = s.toNat % sels then v else bit (b.r s) c) :
    (b.putR s m).deniedR t = if t = s then v else b.deniedR t := by
  by_cases part : s.toNat < sels ↔ t.toNat < sels
  · have same : b.r t = b.r s := by simp only [r, part]
    rw [deniedR, r_putR, if_pos part, at_, deniedR, same]
    simp only [own validS validT part]
  · have other : t ≠ s := fun is => part (by rw [is])
    rw [deniedR, r_putR, if_neg part, if_neg other, deniedR]

theorem deniedW_putW (validS : selValid s = true) (validT : selValid t = true)
    (at_ : ∀ c, bit m c = if c = s.toNat % sels then v else bit (b.w s) c) :
    (b.putW s m).deniedW t = if t = s then v else b.deniedW t := by
  by_cases part : s.toNat < sels ↔ t.toNat < sels
  · have same : b.w t = b.w s := by simp only [w, part]
    rw [deniedW, w_putW, if_pos part, at_, deniedW, same]
    simp only [own validS validT part]
  · have other : t ≠ s := fun is => part (by rw [is])
    rw [deniedW, w_putW, if_neg part, if_neg other, deniedW]

end Change

/-- `clr_w` or `set_w`, which leave the bits for reading alone -/
theorem changeW_spec {s : Word} (valid : selValid s = true) (b : BitmapMsr) (allowed : Bool) :
    ∃ b', (if allowed then b.clrW s else b.setW s) = some b' ∧
      ∀ t, selValid t = true → b'.deniedW t = (if t = s then !allowed else b.deniedW t) ∧ b'.deniedR t = b.deniedR t := by
  cases allowed with
  | true =>
      obtain ⟨m, done, at_⟩ := modify_clear (m := b.w s) (index_lt s)
      refine ⟨b.putW s m, ?_, fun t validT => ⟨deniedW_putW valid validT at_, deniedR_putW b s t m⟩⟩
      rw [if_pos rfl, clrW, selBmask_eq, index, done, Option.map_some]
  | false =>
      obtain ⟨m, done, at_⟩ := modify_set (m := b.w s) (index_lt s)
      refine ⟨b.putW s m, ?_, fun t validT => ⟨deniedW_putW valid validT at_, deniedR_putW b s t m⟩⟩
      rw [if_neg Bool.false_ne_true, setW, selBmask_eq, index, done, Option.map_some]

/-- `clr_r` or `set_r`, which leave the bits for writing alone -/
theorem changeR_spec {s : Word} (valid : selValid s = true) (b : BitmapMsr) (allowed : Bool) :
    ∃ b', (if allowed then b.clrR s else b.setR s) = some b' ∧
      ∀ t, selValid t = true → b'.deniedR t = (if t = s then !allowed else b.deniedR t) ∧ b'.deniedW t = b.deniedW t := by
  cases allowed with
  | true =>
      obtain ⟨m, done, at_⟩ := modify_clear (m := b.r s) (index_lt s)
      refine ⟨b.putR s m, ?_, fun t validT => ⟨deniedR_putR valid validT at_, deniedW_putR b s t m⟩⟩
      rw [if_pos rfl, clrR, selBmask_eq, index, done, Option.map_some]
  | false =>
      obtain ⟨m, done, at_⟩ := modify_set (m := b.r s) (index_lt s)
      refine ⟨b.putR s m, ?_, fun t validT => ⟨deniedR_putR valid validT at_, deniedW_putR b s t m⟩⟩
      rw [if_neg Bool.false_ne_true, setR, selBmask_eq, index, done, Option.map_some]

end BitmapMsr

namespace SpaceMsr

theorem lookup_eq (s : Word) (b : BitmapMsr) :
    lookup s b = some (allow (ops.valid s) (b.deniedW s) permW ||| allow (ops.valid s) (b.deniedR s) permR) := by
  show lookup s b = some (allow (BitmapMsr.selValid s) _ _ ||| allow (BitmapMsr.selValid s) _ _)
  unfold lookup
  rw [BitmapMsr.tstW_eq, BitmapMsr.tstR_eq]
  cases BitmapMsr.selValid s <;> cases b.deniedW s <;> cases b.deniedR s <;> rfl

theorem perm_eq (b : BitmapMsr) (s : Word) :
    ops.perm b s = allow (ops.valid s) (b.deniedW s) permW ||| allow (ops.valid s) (b.deniedR s) permR := by
  rw [Ops.perm, show ops.lookup s b = _ from lookup_eq s b, Option.getD_some]

theorem update_spec (s : Word) (p : Perm) (b : BitmapMsr) :
    ∃ b', update s p b = some b' ∧ ∀ t, ops.valid t = true →
      b'.deniedW t = (if t = s ∧ ops.valid s = true then decide (p &&& permW = 0#32) else b.deniedW t) ∧
      b'.deniedR t = if t = s ∧ ops.valid s = true then decide (p &&& permR = 0#32) else b.deniedR t := by
  unfold update
  by_cases valid : BitmapMsr.selValid s = true
  · have valid' : ops.valid s = true := valid
    rw [if_pos valid]
    simp only [valid', and_true]
    obtain ⟨b₁, first, at₁⟩ := BitmapMsr.changeW_spec valid b (decide (p &&& permW ≠ 0#32))
    obtain ⟨b₂, second, at₂⟩ := BitmapMsr.changeR_spec valid b₁ (decide (p &&& permR ≠ 0#32))
    simp only [decide_eq_true_eq] at first second
    refine ⟨b₂, by rw [first, Option.bind_some, second], fun t validT => ?_⟩
    obtain ⟨w₁, r₁⟩ := at₁ t validT
    obtain ⟨r₂, w₂⟩ := at₂ t validT
    rw [w₂, w₁, r₂, r₁]
    simp
  · rw [if_neg valid]
    refine ⟨b, rfl, fun t _ => ?_⟩
    rw [if_neg fun both => valid both.2, if_neg fun both => valid both.2]
    exact ⟨rfl, rfl⟩

/-- An aligned range does not reach into the high range from below. -/
theorem range_valid {base ord : Nat} (small : ord < 32) (aligned : base % 2 ^ ord = 0)
    (last : base + (2 ^ ord - 1) < 8192 ∨ 3221225472 ≤ base + (2 ^ ord - 1) ∧ base + (2 ^ ord - 1) < 3221233664) :
    base + (2 ^ ord - 1) < 8192 ∨ 3221225472 ≤ base := by
  rcases last with low | ⟨above, below⟩
  · exact .inl low
  · have positive : 0 < 2 ^ ord := Nat.two_pow_pos ord
    obtain ⟨c, rfl⟩ := Nat.dvd_of_mod_eq_zero aligned
    refine .inr ?_
    by_cases inner : ord ≤ 13
    · -- the start of the high range is a multiple of the size
      obtain ⟨d, start⟩ : 2 ^ ord ∣ 3221225472 := (Nat.pow_dvd_pow 2 inner).trans (by decide)
      rw [start] at above ⊢
      have less : 2 ^ ord * d < 2 ^ ord * (c + 1) := by
        rw [Nat.mul_succ]
        omega
      exact Nat.mul_le_mul_left _ (Nat.le_of_lt_succ (Nat.lt_of_mul_lt_mul_left less))
    · -- no multiple of a larger size is in the high range
      obtain ⟨e, size⟩ : 2 ^ 14 ∣ 2 ^ ord := Nat.pow_dvd_pow 2 (by omega)
      have whole : 2 ^ ord * c + 2 ^ ord = 16384 * (e * c + e) := by
        rw [size]
        ring
      omega

theorem lawful : ops.Lawful (permW ||| permR) := by
  refine ⟨fun s b => ?_, fun s p b => ?_, fun b s => ?_, fun ssb ord small base last => ?_⟩
  · rw [perm_eq]
    exact lookup_eq s b
  · obtain ⟨b', done, at_⟩ := update_spec s p b
    refine ⟨b', done, fun t => ?_⟩
    rw [perm_eq, perm_eq]
    by_cases valid : ops.valid t = true
    · obtain ⟨w, r⟩ := at_ t valid
      rw [w, r]
      by_cases here : t = s ∧ ops.valid s = true
      · rw [if_pos here, if_pos here, if_pos here, valid]
        have writes : allow true (decide (p &&& permW = 0#32)) permW = p &&& permW := allow_self p 1
        have reads : allow true (decide (p &&& permR = 0#32)) permR = p &&& permR := allow_self p 0
        rw [writes, reads]
        exact BitVec.and_or_distrib_left.symm
      · rw [if_neg here, if_neg here, if_neg here]
    · have other : ¬ (t = s ∧ ops.valid s = true) := fun here => valid (here.1 ▸ here.2)
      rw [if_neg other]
      simp only [allow, valid, false_and, if_false, Bool.false_eq_true]
  · rw [perm_eq]
    unfold allow
    split <;> split <;> decide
  · have last := (BitmapMsr.selValid_iff _).mp last
    rw [toNat_last small base] at last
    have positive : 0 < 2 ^ ord := Nat.two_pow_pos ord
    have low := range_valid small base last
    refine ⟨by omega, fun s from_ high => (BitmapMsr.selValid_iff s).mpr ?_⟩
    omega

end SpaceMsr

/-- **Delegation of ports and MSRs.** -/
theorem bit_delegate {I : Type} [DecidableEq I] (src dst : I) {ssb dsb : Word} {ord : Nat} (small : ord < 32)
    (aligned : (ssb ||| dsb) &&& (bitn ord - 1#64) = 0#64) (pmm : Perm) :
    (∀ m : I → BitmapPio, ∃ status m', SpacePio.delegate src dst ssb dsb ord pmm m = some (status, m') ∧
      SpacePio.ops.Delegated src dst ssb dsb ord pmm m status m') ∧
    ∀ m : I → BitmapMsr, ∃ status m', SpaceMsr.delegate src dst ssb dsb ord pmm m = some (status, m') ∧
      SpaceMsr.ops.Delegated src dst ssb dsb ord pmm m status m' :=
  ⟨SpacePio.lawful.delegate src dst small aligned pmm, SpaceMsr.lawful.delegate src dst small aligned pmm⟩

/-- All four parts of the bitmap with the same words -/
def BitmapMsr.fill (w : Word) : BitmapMsr :=
  let part := Vector.replicate 128 w
  ⟨part, part, part, part⟩

def BitmapPio.fill (w : Word) : BitmapPio := ⟨Vector.replicate 1024 w⟩

/-- The eight ports of a UART and two MSRs of the high range, the latter for reading only, from a space with all
permissions to one without any; a range across the end of the ports is refused. -/
theorem bit_delegate_two :
    (∃ m', SpacePio.delegate true false 0x3f8#64 0x3f8#64 3 permR
        (fun full => .fill (if full then 0#64 else ~~~ 0#64)) = some (.success, m') ∧
      SpacePio.ops.perm (m' false) 0x3ff#64 = permR ∧ SpacePio.ops.perm (m' false) 0x400#64 = 0#32) ∧
    (∃ m', SpaceMsr.delegate true false 0xc0000080#64 0xc0000080#64 1 permR
        (fun full => .fill (if full then 0#64 else ~~~ 0#64)) = some (.success, m') ∧
      SpaceMsr.ops.perm (m' false) 0xc0000081#64 = permR ∧ SpaceMsr.ops.perm (m' false) 0xc0000082#64 = 0#32) ∧
    ∃ m', SpacePio.delegate true false 0#64 0#64 17 permR (fun _ => .fill 0#64) = some (.badPar, m') := by
  refine ⟨?_, ?_, ?_⟩
  · have aligned : (0x3f8#64 ||| 0x3f8#64) &&& (bitn 3 - 1#64) = 0#64 := by decide
    obtain ⟨status, m', done, delegated⟩ := (bit_delegate true false (show 3 < 32 by decide) aligned permR).1
      fun full => .fill (if full then 0#64 else ~~~ 0#64)
    have accepted : status = .success := delegated.outcome.resolve_right fun bad => by
      obtain differ | ⟨s, low, high, invalid⟩ := delegated.refused.mp bad
      · exact differ rfl
      · have valid : SpacePio.ops.valid s = true := decide_eq_true (show s.toNat < 65536 from high.trans (by decide))
        exact absurd (valid.symm.trans invalid) (by decide)
    subst accepted
    refine ⟨m', done, (delegated.done rfl _).trans ?_, (delegated.done rfl _).trans ?_⟩
    · decide +kernel
    · decide +kernel
  · have aligned : (0xc0000080#64 ||| 0xc0000080#64) &&& (bitn 1 - 1#64) = 0#64 := by decide
    obtain ⟨status, m', done, delegated⟩ := (bit_delegate true false (show 1 < 32 by decide) aligned permR).2
      fun full => .fill (if full then 0#64 else ~~~ 0#64)
    have accepted : (SpaceMsr.delegate true false 0xc0000080#64 0xc0000080#64 1 permR
        fun full => .fill (if full then 0#64 else ~~~ 0#64)).map (fun r => r.1) = some .success := by
      decide +kernel
    rw [done] at accepted
    obtain rfl : status = .success := Option.some.inj accepted
    refine ⟨m', done, (delegated.done rfl _).trans ?_, (delegated.done rfl _).trans ?_⟩
    · decide +kernel
    · decide +kernel
  · obtain ⟨status, m', done, delegated⟩ := (bit_delegate true false (show 17 < 32 by decide)
      (show (0#64 ||| 0#64) &&& (bitn 17 - 1#64) = 0#64 by decide) permR).1 fun _ => .fill 0#64
    have refused := delegated.refused.mpr (.inr ⟨0x10000#64, by decide, by decide, by decide⟩)
    exact ⟨m', refused ▸ done⟩

end Nova.Kernel.BitSpaces
