/-
# Nova.Kernel.SlabCapability — aligned buffers and the capabilities that point to them

A capability keeps its permissions in the low bits of a pointer, which relies on the
slab caches: the buffers of a slab are laid out backwards from the end of the page, in
steps of a size that is a multiple of the alignment.

* `buffers_geometry` is the layout of one slab.
* `live_aligned` carries the alignment to every buffer that a cache hands out in a run.
* `slab_capability` puts both together with the encoding of capabilities.
-/
import Nova.Kernel.Slab
import Nova.Kernel.Capability
import Mathlib.Tactic.IntervalCases

namespace Nova.Kernel

open Nova.Theory.Words
open Nova.Theory.Runs

set_option autoImplicit false

/-- `Kobject::alignment` -/
abbrev kobjectAlignment : Nat := 2 ^ 5

namespace SlabCache

/-- The size of the buffers before it is stored in 16 bits: `align_up (max (s, sizeof (Buffer)), max (a, alignof (Buffer)))` -/
def roundedSize (s a : Nat) : Nat := (max s 8 + (max a 8 - 1)) / max a 8 * max a 8

/-- The layout of the slab at `x` of a cache for elements of size `s` and alignment `a` -/
structure Geometry (c : SlabCache) (s a x : Nat) : Prop where
  size : s ≤ c.bsz
  count : 0 < c.bps ∧ (c.buffers x).length = c.bps ∧ (c.buffers x).Nodup
  aligned : ∀ p ∈ c.buffers x, p % a = 0
  /-- Behind the metadata, and in front of the end of the page -/
  inside : ∀ p ∈ c.buffers x, x + metaBytes ≤ p ∧ p + c.bsz ≤ x + slabBytes
  apart : ∀ p ∈ c.buffers x, ∀ q ∈ c.buffers x, p ≠ q → p + c.bsz ≤ q ∨ q + c.bsz ≤ p
  recovered : ∀ p ∈ c.buffers x, fromBuffer p = x

section Layout

variable {self s a : Nat} {slab : Nat → Slab}

/-- The 16 bits are enough. -/
theorem bsz_create (fits : roundedSize s a ≤ slabBytes - metaBytes) : (create self s a slab).bsz = roundedSize s a := by
  have small : roundedSize s a ≤ 4056 := fits
  exact Nat.mod_eq_of_lt (show roundedSize s a < 65536 by omega)

theorem le_roundedSize (s a : Nat) : max s 8 ≤ roundedSize s a := by
  have positive : 0 < max a 8 := by omega
  have rest := Nat.mod_lt (max s 8 + (max a 8 - 1)) positive
  have split := Nat.div_add_mod (max s 8 + (max a 8 - 1)) (max a 8)
  rw [Nat.mul_comm] at split
  unfold roundedSize
  omega

/-- A divisor of the page size divides the alignment that is used, and that one the page size. -/
theorem dvd_align (divides : a ∣ slabBytes) : a ∣ max a 8 ∧ max a 8 ∣ slabBytes := by
  by_cases large : 8 ≤ a
  · rw [Nat.max_eq_left large]
    exact ⟨Nat.dvd_refl a, divides⟩
  · have small : a < 8 := by omega
    rw [Nat.max_eq_right (Nat.le_of_lt small)]
    have positive : 0 < a := Nat.pos_of_dvd_of_pos divides (by decide)
    refine ⟨?_, by decide⟩
    interval_cases a <;> revert divides <;> decide

/-- **The layout of a slab.** -/
theorem buffers_geometry (divides : a ∣ slabBytes) (fits : roundedSize s a ≤ slabBytes - metaBytes) {x : Nat}
    (page : x % slabBytes = 0) : (create self s a slab).Geometry s a x := by
  have bsz : (create self s a slab).bsz = roundedSize s a := bsz_create fits
  have big := le_roundedSize s a
  obtain ⟨first, second⟩ := dvd_align divides
  have unit : a ∣ (create self s a slab).bsz := by
    rw [bsz]
    exact first.trans (Nat.dvd_mul_left _ _)
  have geometry : 0 < (create self s a slab).bps ∧ 0 < (create self s a slab).bsz ∧
      (create self s a slab).bps * (create self s a slab).bsz ≤ slabBytes - metaBytes := by
    refine ⟨?_, by omega, Nat.div_mul_le_self _ _⟩
    show 0 < (slabBytes - metaBytes) / (create self s a slab).bsz
    exact Nat.div_pos (bsz ▸ fits) (by omega)
  have bound (i : Nat) (below : i < (create self s a slab).bps) :
      (i + 1) * (create self s a slab).bsz ≤ slabBytes - metaBytes :=
    (Nat.mul_le_mul_right _ below).trans geometry.2.2
  refine ⟨by omega, ⟨geometry.1, ?_, nodup_buffers geometry x⟩, fun p member => ?_, fun p member => ?_,
    fun p memP q memQ ne => ?_, fun p member => fromBuffer_of_mem geometry page member⟩
  · rw [buffers, List.length_map, List.length_range]
  · obtain ⟨i, below, rfl⟩ := List.mem_map.mp member
    refine Nat.mod_eq_zero_of_dvd (Nat.dvd_sub (Nat.dvd_add ?_ divides) (unit.trans (Nat.dvd_mul_left _ _)))
    exact divides.trans (Nat.dvd_of_mod_eq_zero page)
  · obtain ⟨i, below, rfl⟩ := List.mem_map.mp member
    have fits : (i + 1) * (create self s a slab).bsz ≤ 4056 := bound i (List.mem_range.mp below)
    have whole : (i + 1) * (create self s a slab).bsz = i * (create self s a slab).bsz + (create self s a slab).bsz :=
      Nat.succ_mul _ _
    show x + 40 ≤ x + 4096 - (i + 1) * _ ∧ x + 4096 - (i + 1) * _ + _ ≤ x + 4096
    omega
  · obtain ⟨i, belowI, rfl⟩ := List.mem_map.mp memP
    obtain ⟨j, belowJ, rfl⟩ := List.mem_map.mp memQ
    have fitsI : (i + 1) * (create self s a slab).bsz ≤ 4056 := bound i (List.mem_range.mp belowI)
    have fitsJ : (j + 1) * (create self s a slab).bsz ≤ 4056 := bound j (List.mem_range.mp belowJ)
    have step {k l : Nat} (less : k < l) :
        (k + 1) * (create self s a slab).bsz + (create self s a slab).bsz ≤ (l + 1) * (create self s a slab).bsz := by
      rw [← Nat.succ_mul]
      exact Nat.mul_le_mul_right _ (Nat.succ_le_succ less)
    show x + 4096 - (i + 1) * _ + _ ≤ x + 4096 - (j + 1) * _ ∨ x + 4096 - (j + 1) * _ + _ ≤ x + 4096 - (i + 1) * _
    rcases Nat.lt_trichotomy i j with less | same | greater
    · have := step less
      omega
    · exact absurd (by rw [same]) ne
    · have := step greater
      omega

end Layout

/-! ## Runs -/

/-- The geometry, which no operation changes -/
def size (c : SlabCache) : Nat × Nat := (c.bsz, c.bps)

theorem size_setNext (c : SlabCache) (o v : Option Nat) : (c.setNext o v).size = c.size := by
  cases o <;> rfl

theorem size_setPrev (c : SlabCache) (o v : Option Nat) : (c.setPrev o v).size = c.size := by
  cases o <;> rfl

theorem size_unlink (c : SlabCache) (x : Nat) : (c.unlink x).size = c.size := by
  rw [unlink, size_setPrev, size_setNext]

theorem size_grow (c : SlabCache) (x : Nat) : (c.grow x).size = c.size := by
  unfold grow
  exact size_setPrev _ _ _

theorem size_release (c : SlabCache) (x : Nat) : (c.release x).size = c.size := by
  unfold release
  refine (size_unlink _ x).trans ?_
  split <;> split <;> rfl

theorem size_requeue {c c' : SlabCache} {x : Nat} (done : c.requeue x = some c') : c'.size = c.size := by
  unfold requeue at done
  split at done
  · rename_i y _
    simp only at done
    split at done
    · cases done
    · cases done
      rw [size_setNext, size_setPrev, size_setNext, size_setPrev]
  · simp only at done
    split at done
    · cases done
    · cases done
      exact (size_setPrev _ _ _).trans ((size_setNext _ _ _).trans (size_setPrev _ _ _))

theorem size_take {c c' : SlabCache} {result : Option Nat} (done : c.take = some (result, c')) : c'.size = c.size := by
  unfold take at done
  split at done
  · cases done
  · split at done
    · cases done
    · split at done
      · cases done
      · split at done
        · cases done
        · cases done
          split <;> rfl

theorem size_step {op : Op} {c c' : SlabCache} (done : step op c = some c') : c'.size = c.size := by
  cases op with
  | alloc answer =>
      obtain ⟨⟨result, c₁⟩, allocated, rfl⟩ := Option.map_eq_some_iff.mp done
      unfold alloc at allocated
      split at allocated
      · exact size_take allocated
      · cases allocated
        rfl
      · split at allocated
        · exact (size_take allocated).trans (size_grow c _)
        · cases allocated
          rfl
  | free p =>
      change c.free p = some c' at done
      unfold free at done
      simp only at done
      split at done
      · split at done
        · cases done
          exact size_release _ _
        · split at done
          · obtain ⟨c₁, reopened, rfl⟩ := Option.map_eq_some_iff.mp done
            split at reopened
            · exact (size_requeue reopened).trans (size_unlink _ _)
            · cases reopened
              rfl
          · cases done
            rfl
      · cases done

/-- A live buffer is one of its slab. -/
theorem Shape.live_mem {c : SlabCache} {P F : List Nat} (shape : c.Shape P F) {p : Nat} (live : p ∈ c.live) :
    fromBuffer p % slabBytes = 0 ∧ p ∈ c.buffers (fromBuffer p) := by
  have member := shape.live p live
  refine ⟨shape.aligned _ member, (shape.buffers _ member).mem_iff.mp (List.mem_append_right _ ?_)⟩
  exact List.mem_filter.mpr ⟨live, by simp⟩

/-- **Every buffer that a cache hands out is aligned**, in every run. -/
theorem live_aligned {self s a : Nat} {slab : Nat → Slab} (divides : a ∣ slabBytes)
    (fits : roundedSize s a ≤ slabBytes - metaBytes) {ops : List Op} {c : SlabCache}
    (legal : Legal step Allowed (create self s a slab) ops) (run : runs step (create self s a slab) ops = some c) :
    ∀ p ∈ c.live, p % a = 0 := by
  intro p live
  have geometry : (create self s a slab).Geometry s a 0 := buffers_geometry divides fits (Nat.zero_mod slabBytes)
  have room := geometry.count.1
  obtain ⟨c', run', ⟨P, F, shape⟩, -⟩ := slab_invariant self s a slab room ops legal
  obtain rfl : c = c' := Option.some.inj (run.symm.trans run')
  obtain ⟨page, member⟩ := shape.live_mem live
  have size : c.size = (create self s a slab).size :=
    runs_keeps (fun _ _ _ same done => (size_step done).trans same) rfl run
  obtain ⟨bsz, bps⟩ := Prod.mk.inj size
  have same : c.buffers (fromBuffer p) = (create self s a slab).buffers (fromBuffer p) := by
    rw [buffers, bsz, bps, buffers]
  rw [same] at member
  exact (buffers_geometry divides fits page).aligned p member

end SlabCache

/-! ## Capabilities -/

namespace Capability

/-- What an object pointer `o` and permissions `p` make of a capability -/
structure Packed (o : Word) (p : Perm) : Prop where
  obj : (ofObject o p).obj = o
  prm : (ofObject o p).prm = p
  some : ofObject o p ≠ null

theorem packed {o : Word} (aligned : Aligned o) {p : Perm} (any : p ≠ 0#32) (narrow : p.Narrow) : Packed o p where
  obj := obj_ofObject aligned any
  prm := prm_ofObject aligned narrow
  some is := any (by rw [← prm_ofObject aligned narrow, is, prm_null])

/-- A multiple of the alignment has the bits for the permissions clear. -/
theorem aligned_ofNat {p : Nat} (unit : p % kobjectAlignment = 0) : Aligned (BitVec.ofNat 64 p) := by
  apply BitVec.eq_of_toNat_eq
  rw [pmask, toNat_and_lowMask _ (by decide), BitVec.toNat_ofNat]
  have unit : p % 32 = 0 := unit
  show p % 2 ^ 64 % 32 = 0
  omega

end Capability

/-- **Slab geometry and capability packing.**  The buffers of a slab are aligned, disjoint,
in their page and apart from the metadata, and lead back to the slab.  So every object
of a cache with the alignment of kernel objects packs with any permissions into a
capability from which both come out again: no two pairs share a capability, and without
permissions it is the null capability. -/
theorem slab_capability (self s a : Nat) (slab : Nat → Slab) (divides : a ∣ slabBytes)
    (fits : SlabCache.roundedSize s a ≤ slabBytes - metaBytes) :
    (∀ x, x % slabBytes = 0 → (SlabCache.create self s a slab).Geometry s a x) ∧
    (a = kobjectAlignment → ∀ ops c, Legal SlabCache.step SlabCache.Allowed (SlabCache.create self s a slab) ops →
      runs SlabCache.step (SlabCache.create self s a slab) ops = some c → ∀ o ∈ c.live,
        Capability.Aligned (BitVec.ofNat 64 o) ∧
        (∀ p : Perm, p ≠ 0#32 → p.Narrow → Capability.Packed (BitVec.ofNat 64 o) p) ∧
        Capability.ofObject (BitVec.ofNat 64 o) 0#32 = .null ∧
        ∀ o' ∈ c.live, ∀ p p' : Perm, p ≠ 0#32 → p' ≠ 0#32 → p.Narrow → p'.Narrow →
          Capability.ofObject (BitVec.ofNat 64 o) p = Capability.ofObject (BitVec.ofNat 64 o') p' →
          BitVec.ofNat 64 o = BitVec.ofNat 64 o' ∧ p = p') := by
  refine ⟨fun x page => SlabCache.buffers_geometry divides fits page, ?_⟩
  rintro rfl ops c legal run o live
  have aligned {o : Nat} (live : o ∈ c.live) : Capability.Aligned (BitVec.ofNat 64 o) :=
    Capability.aligned_ofNat (SlabCache.live_aligned divides fits legal run o live)
  refine ⟨aligned live, fun p any narrow => Capability.packed (aligned live) any narrow, Capability.ofObject_zero _, ?_⟩
  intro o' live' p p' any any' narrow narrow' same
  have first := Capability.packed (aligned live) any narrow
  have second := Capability.packed (aligned live') any' narrow'
  exact ⟨by rw [← first.obj, same, second.obj], by rw [← first.prm, same, second.prm]⟩

/-- A cache for objects of 72 bytes, and a capability for the first object that it hands out -/
theorem slab_capability_one :
    ∃ c, runs SlabCache.step (SlabCache.create 0 72 32 fun _ => ⟨0, none, none, [], 0⟩) [.alloc (some 8192)] = some c ∧
      c.live = [12192] ∧ Capability.Packed 12192#64 Perm.definedEc := by
  have legal : Legal SlabCache.step SlabCache.Allowed (SlabCache.create 0 72 32 fun _ => ⟨0, none, none, [], 0⟩)
      [.alloc (some 8192)] := ⟨trivial, fun _ _ => trivial⟩
  have outcome : (runs SlabCache.step (SlabCache.create 0 72 32 fun _ => ⟨0, none, none, [], 0⟩)
      [.alloc (some 8192)]).map (fun c => c.live) = some [12192] := by
    decide
  obtain ⟨c, run, live⟩ := Option.map_eq_some_iff.mp outcome
  have packs := (slab_capability 0 72 32 (fun _ => ⟨0, none, none, [], 0⟩) (by decide) (by decide)).2 rfl _ c legal run 12192
    (by rw [live]; exact List.mem_cons_self)
  exact ⟨c, run, live, packs.2.1 Perm.definedEc (by decide) (by decide)⟩

end Nova.Kernel
