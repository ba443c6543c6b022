/-
# Nova.Kernel.Slab — slab caches

`Slab_cache` of `src/slab.cpp` and `inc/slab.hpp`: fixed-size buffers out of pages,
with the slabs of a cache on a doubly linked list.  A slab is known by its address,
which is page-aligned, a buffer by its own.  The chain of free buffers that starts
in `meta.head` is a list.  The lock makes `alloc` and `free` atomic.  An assertion
that fails, or an access through a null pointer, is `none`.

What `Buddy::alloc (0)` answers is part of the call of `alloc`; a page that is in use
already counts as `nullptr`.  `pages` are the slabs that the cache has obtained and
not given back, `returned` those it gave back, `live` the buffers that it handed out
and did not get back; no code reads them.

* `Shape P F` says that the list consists of the slabs `P`, which have free buffers,
  followed by the slabs `F`, which have none, and that `curr` is the last of `P`.
* `slab_invariant` is the invariant of every run.
-/
import Nova.Theory.Links
import Nova.Theory.Runs
import Mathlib.Data.List.Perm.Basic

namespace Nova.Kernel

open Nova.Theory.Links
open Nova.Theory.Runs

set_option autoImplicit false

/-- `sizeof (Slab)` -/
abbrev slabBytes : Nat := 4096

/-- `sizeof (Slab::Metadata)` -/
abbrev metaBytes : Nat := 40

/-- `Slab::Metadata` -/
structure Slab where
  cache : Nat
  prev : Option Nat
  next : Option Nat
  /-- the buffers on the chain that starts in `head` -/
  free : List Nat
  acnt : Nat
  deriving DecidableEq

namespace Slab

/-- `full()` -/
def full (s : Slab) : Bool := s.acnt = 0

/-- `empty()` -/
def empty (s : Slab) (bps : Nat) : Bool := s.acnt = bps

end Slab

structure SlabCache where
  self : Nat
  bsz : Nat
  bps : Nat
  curr : Option Nat
  head : Option Nat
  slab : Nat → Slab
  pages : List Nat
  returned : List Nat
  live : List Nat

namespace SlabCache

/-- `Slab_cache::Slab_cache (s, a)`; `a` is a power of 2.  `bsz` is a `uint16`. -/
def create (self s a : Nat) (slab : Nat → Slab) : SlabCache :=
  let align := max a 8
  let bsz := (max s 8 + (align - 1)) / align * align % 2 ^ 16
  { self, bsz, bps := (slabBytes - metaBytes) / bsz, curr := none, head := none, slab,
    pages := [], returned := [], live := [] }

/-- The buffers of the slab at `x`, the last one first: `data + sizeof (data) - i * bsz` -/
def buffers (c : SlabCache) (x : Nat) : List Nat :=
  (List.range c.bps).map fun i => x + slabBytes - (i + 1) * c.bsz

/-- `Slab::from_buffer` -/
def fromBuffer (p : Nat) : Nat := p / slabBytes * slabBytes

def setSlab (c : SlabCache) (x : Nat) (f : Slab → Slab) : SlabCache :=
  { c with slab := Function.update c.slab x (f (c.slab x)) }

/-- `if (x) x->meta.next = v` -/
def setNext (c : SlabCache) (x v : Option Nat) : SlabCache :=
  match x with
  | none => c
  | some x => c.setSlab x fun s => { s with next := v }

/-- `if (x) x->meta.prev = v` -/
def setPrev (c : SlabCache) (x v : Option Nat) : SlabCache :=
  match x with
  | none => c
  | some x => c.setSlab x fun s => { s with prev := v }

/-- `new Slab (this)`, linked as head and curr -/
def grow (c : SlabCache) (x : Nat) : SlabCache :=
  let c := c.setSlab x fun _ =>
    { cache := c.self, prev := none, next := c.head, free := c.buffers x, acnt := c.bps }
  { c.setPrev c.head (some x) with head := some x, curr := some x, pages := x :: c.pages }

/-- The part of `alloc` after there is a current slab -/
def take (c : SlabCache) : Option (Option Nat × SlabCache) :=
  match c.curr with
  | none => none
  | some x =>
      if (c.slab x).full then none
      else if (c.slab x).next.any fun y => !(c.slab y).full then none
      else
        match (c.slab x).free with
        | [] => none
        | p :: rest =>
            let c := { c.setSlab x fun s => { s with free := rest, acnt := s.acnt - 1 } with live := p :: c.live }
            some (some p, if (c.slab x).full then { c with curr := (c.slab x).prev } else c)

/-- A page that `Buddy::alloc (0)` may return -/
def Usable (c : SlabCache) (x : Nat) : Prop := x % slabBytes = 0 ∧ x ∉ c.pages

instance (c : SlabCache) (x : Nat) : Decidable (c.Usable x) := inferInstanceAs (Decidable (_ ∧ _))

/-- `Slab_cache::alloc`: the buffer, `none` for `nullptr` -/
def alloc (answer : Option Nat) (c : SlabCache) : Option (Option Nat × SlabCache) :=
  match c.curr, answer with
  | some _, _ => c.take
  | none, none => some (none, c)
  | none, some x => if c.Usable x then (c.grow x).take else some (none, c)

/-- Unlink the slab at `x` from its neighbours. -/
def unlink (c : SlabCache) (x : Nat) : SlabCache :=
  let prev := (c.slab x).prev
  let next := (c.slab x).next
  (c.setNext prev next).setPrev next prev

/-- The transition to an empty slab -/
def release (c : SlabCache) (x : Nat) : SlabCache :=
  let c := if c.curr = some x then { c with curr := (c.slab x).prev } else c
  let c := if c.head = some x then { c with head := (c.slab x).next } else c
  { c.unlink x with pages := c.pages.erase x, returned := x :: c.returned }

/-- Link the slab at `x` as successor of `curr`, or as head. -/
def requeue (c : SlabCache) (x : Nat) : Option SlabCache :=
  match c.curr with
  | some y =>
      let c := (c.setPrev (some x) (some y)).setNext (some x) (c.slab y).next
      match (c.slab y).next with
      | none => none
      | some z => some ((c.setPrev (some z) (some x)).setNext (some y) (some x))
  | none =>
      let c := (c.setPrev (some x) none).setNext (some x) c.head
      match c.head with
      | none => none
      | some z => some { c.setPrev (some z) (some x) with head := some x }

/-- The transition from a full to a partial slab -/
def reopen (c : SlabCache) (x : Nat) : Option SlabCache :=
  let blocked := (c.slab x).prev.any fun y => (c.slab y).full
  (if blocked then (c.unlink x).requeue x else some c).map fun c => { c with curr := some x }

/-- `Slab::Metadata::free` -/
def give (c : SlabCache) (p : Nat) : SlabCache :=
  { c.setSlab (fromBuffer p) fun s => { s with free := p :: s.free, acnt := s.acnt + 1 } with live := c.live.erase p }

/-- `Slab_cache::free` -/
def free (p : Nat) (c : SlabCache) : Option SlabCache :=
  let x := fromBuffer p
  if (c.slab x).cache = c.self then
    let wasFull := (c.slab x).full
    let c := c.give p
    if (c.slab x).empty c.bps then some (c.release x)
    else if wasFull then c.reopen x
    else some c
  else none

/-! ## The invariant -/

/-- The list of the slabs, and what is in them -/
structure Listed (c : SlabCache) (L : List Nat) : Prop where
  linked : Linked (fun x => (c.slab x).prev) (fun x => (c.slab x).next) L
  head : c.head = L.head?
  nodup : L.Nodup
  pages : c.pages.Perm L
  /-- The geometry: at least one buffer, and all of them behind the metadata -/
  geometry : 0 < c.bps ∧ 0 < c.bsz ∧ c.bps * c.bsz ≤ slabBytes - metaBytes
  aligned : ∀ x ∈ L, x % slabBytes = 0
  mine : ∀ x ∈ L, (c.slab x).cache = c.self
  count : ∀ x ∈ L, (c.slab x).free.length = (c.slab x).acnt
  /-- Every buffer of a slab is free or live, and that once. -/
  buffers : ∀ x ∈ L, ((c.slab x).free ++ c.live.filter (fromBuffer · = x)).Perm (c.buffers x)
  live : ∀ p ∈ c.live, fromBuffer p ∈ L
  nodupLive : c.live.Nodup

/-- The slabs `P` with free buffers, then the slabs `F` without -/
structure Shape (c : SlabCache) (P F : List Nat) : Prop extends Listed c (P ++ F) where
  curr : c.curr = P.getLast?
  available : ∀ x ∈ P, 0 < (c.slab x).acnt
  full : ∀ x ∈ F, (c.slab x).acnt = 0

/-- No slab is empty. -/
def Busy (c : SlabCache) : Prop := ∀ x ∈ c.pages, (c.slab x).acnt < c.bps

section Buffers

variable {c : SlabCache}

/-- The buffers lie in their slab. -/
theorem fromBuffer_of_mem (geometry : 0 < c.bps ∧ 0 < c.bsz ∧ c.bps * c.bsz ≤ slabBytes - metaBytes) {x p : Nat}
    (aligned : x % slabBytes = 0) (member : p ∈ c.buffers x) : fromBuffer p = x := by
  obtain ⟨i, below, rfl⟩ := List.mem_map.mp member
  have low : c.bsz ≤ (i + 1) * c.bsz := Nat.le_mul_of_pos_left _ (Nat.succ_pos i)
  have high : (i + 1) * c.bsz ≤ c.bps * c.bsz := Nat.mul_le_mul_right _ (List.mem_range.mp below)
  unfold fromBuffer
  generalize (i + 1) * c.bsz = d at *
  change x % 4096 = 0 at aligned
  have fits : c.bps * c.bsz ≤ 4056 := geometry.2.2
  have positive := geometry.2.1
  show (x + 4096 - d) / 4096 * 4096 = x
  omega

theorem nodup_buffers (geometry : 0 < c.bps ∧ 0 < c.bsz ∧ c.bps * c.bsz ≤ slabBytes - metaBytes) (x : Nat) :
    (c.buffers x).Nodup := by
  refine List.Nodup.map_on (fun i hi j hj same => ?_) List.nodup_range
  have high : ∀ k ∈ List.range c.bps, (k + 1) * c.bsz ≤ slabBytes := by
    intro k member
    have below : (k + 1) * c.bsz ≤ c.bps * c.bsz := Nat.mul_le_mul_right c.bsz (List.mem_range.mp member)
    have fits : c.bps * c.bsz ≤ 4056 := geometry.2.2
    show (k + 1) * c.bsz ≤ 4096
    omega
  have e : (i + 1) * c.bsz = (j + 1) * c.bsz := by
    have := high i hi
    have := high j hj
    omega
  exact Nat.succ.inj (Nat.eq_of_mul_eq_mul_right geometry.2.1 e)

end Buffers

/-! ## Links -/

theorem slab_setSlab (c : SlabCache) (x : Nat) (f : Slab → Slab) (y : Nat) :
    (c.setSlab x f).slab y = if y = x then f (c.slab x) else c.slab y := by
  unfold setSlab
  by_cases same : y = x
  · subst same
    simp
  · simp [same]

@[simp] theorem next_setNext (c : SlabCache) (o v : Option Nat) (y : Nat) :
    ((c.setNext o v).slab y).next = if o = some y then v else (c.slab y).next := by
  cases o with
  | none => simp [setNext]
  | some x =>
      by_cases same : y = x
      · simp [setNext, slab_setSlab, same]
      · simp [setNext, slab_setSlab, same, Ne.symm same]

@[simp] theorem prev_setPrev (c : SlabCache) (o v : Option Nat) (y : Nat) :
    ((c.setPrev o v).slab y).prev = if o = some y then v else (c.slab y).prev := by
  cases o with
  | none => simp [setPrev]
  | some x =>
      by_cases same : y = x
      · simp [setPrev, slab_setSlab, same]
      · simp [setPrev, slab_setSlab, same, Ne.symm same]

@[simp] theorem prev_setNext (c : SlabCache) (o v : Option Nat) (y : Nat) :
    ((c.setNext o v).slab y).prev = (c.slab y).prev := by
  cases o with
  | none => rfl
  | some x =>
      by_cases same : y = x
      · simp [setNext, slab_setSlab, same]
      · simp [setNext, slab_setSlab, same]

@[simp] theorem next_setPrev (c : SlabCache) (o v : Option Nat) (y : Nat) :
    ((c.setPrev o v).slab y).next = (c.slab y).next := by
  cases o with
  | none => rfl
  | some x =>
      by_cases same : y = x
      · simp [setPrev, slab_setSlab, same]
      · simp [setPrev, slab_setSlab, same]

/-- Only links, `head` and `curr` have changed. -/
structure SameData (c c' : SlabCache) : Prop where
  cache : c'.self = c.self ∧ c'.bsz = c.bsz ∧ c'.bps = c.bps
  books : c'.pages = c.pages ∧ c'.returned = c.returned ∧ c'.live = c.live
  slab : ∀ y, (c'.slab y).cache = (c.slab y).cache ∧ (c'.slab y).free = (c.slab y).free ∧
    (c'.slab y).acnt = (c.slab y).acnt

theorem SameData.refl (c : SlabCache) : SameData c c := ⟨⟨rfl, rfl, rfl⟩, ⟨rfl, rfl, rfl⟩, fun _ => ⟨rfl, rfl, rfl⟩⟩

theorem SameData.trans {c c' c'' : SlabCache} (first : SameData c c') (second : SameData c' c'') : SameData c c'' where
  cache := ⟨second.cache.1.trans first.cache.1, second.cache.2.1.trans first.cache.2.1,
    second.cache.2.2.trans first.cache.2.2⟩
  books := ⟨second.books.1.trans first.books.1, second.books.2.1.trans first.books.2.1,
    second.books.2.2.trans first.books.2.2⟩
  slab := fun y => ⟨(second.slab y).1.trans (first.slab y).1, (second.slab y).2.1.trans (first.slab y).2.1,
    (second.slab y).2.2.trans (first.slab y).2.2⟩

theorem sameData_setNext (c : SlabCache) (o v : Option Nat) : SameData c (c.setNext o v) := by
  cases o with
  | none => exact SameData.refl c
  | some x =>
      refine ⟨⟨rfl, rfl, rfl⟩, ⟨rfl, rfl, rfl⟩, fun y => ?_⟩
      by_cases same : y = x
      · simp [setNext, slab_setSlab, same]
      · simp [setNext, slab_setSlab, same]

theorem sameData_setPrev (c : SlabCache) (o v : Option Nat) : SameData c (c.setPrev o v) := by
  cases o with
  | none => exact SameData.refl c
  | some x =>
      refine ⟨⟨rfl, rfl, rfl⟩, ⟨rfl, rfl, rfl⟩, fun y => ?_⟩
      by_cases same : y = x
      · simp [setPrev, slab_setSlab, same]
      · simp [setPrev, slab_setSlab, same]

theorem SameData.buffers {c c' : SlabCache} (same : SameData c c') (x : Nat) : c'.buffers x = c.buffers x := by
  unfold SlabCache.buffers
  rw [same.cache.2.1, same.cache.2.2]

namespace Listed

variable {c c' : SlabCache} {L L' : List Nat}

/-- The same slabs in another order -/
theorem relink (listed : c.Listed L) (same : SameData c c') (perm : L'.Perm L)
    (linked : Linked (fun x => (c'.slab x).prev) (fun x => (c'.slab x).next) L') (head : c'.head = L'.head?) :
    c'.Listed L' where
  linked := linked
  head := head
  nodup := perm.nodup_iff.mpr listed.nodup
  pages := by
    rw [same.books.1]
    exact listed.pages.trans perm.symm
  geometry := by
    rw [same.cache.2.1, same.cache.2.2]
    exact listed.geometry
  aligned := fun x member => listed.aligned x (perm.mem_iff.mp member)
  mine := by
    intro x member
    rw [(same.slab x).1, same.cache.1]
    exact listed.mine x (perm.mem_iff.mp member)
  count := by
    intro x member
    rw [(same.slab x).2.1, (same.slab x).2.2]
    exact listed.count x (perm.mem_iff.mp member)
  buffers := by
    intro x member
    rw [(same.slab x).2.1, same.books.2.2, same.buffers]
    exact listed.buffers x (perm.mem_iff.mp member)
  live := by
    intro p member
    rw [same.books.2.2] at member
    exact perm.mem_iff.mpr (listed.live p member)
  nodupLive := by
    rw [same.books.2.2]
    exact listed.nodupLive

/-- The buffers that a slab has on its chain are its own. -/
theorem free_mem (listed : c.Listed L) {x p : Nat} (member : x ∈ L) (free : p ∈ (c.slab x).free) :
    fromBuffer p = x ∧ p ∉ c.live := by
  have all := listed.buffers x member
  have own := fromBuffer_of_mem listed.geometry (listed.aligned x member)
    (all.mem_iff.mp (List.mem_append_left _ free))
  refine ⟨own, fun live => ?_⟩
  have nodup := all.nodup_iff.mpr (nodup_buffers listed.geometry x)
  exact (List.nodup_append.mp nodup).2.2 p free p (List.mem_filter.mpr ⟨live, by simpa using own⟩) rfl

/-- The pointers around a slab -/
theorem links (listed : c.Listed L) {A B : List Nat} {x : Nat} (split : L = A ++ x :: B) :
    (c.slab x).prev = A.getLast? ∧ (c.slab x).next = B.head? := by
  subst split
  exact listed.linked.at_

/-- `unlink` on the list -/
theorem unlink_linked {A B : List Nat} {x : Nat} (listed : c.Listed (A ++ x :: B)) :
    Linked (fun y => ((c.unlink x).slab y).prev) (fun y => ((c.unlink x).slab y).next) (A ++ B) := by
  obtain ⟨prev, next⟩ := listed.links rfl
  have nodup := List.nodup_append.mp listed.nodup
  have inner := List.nodup_cons.mp nodup.2.1
  refine listed.linked.unlink listed.nodup ?_ ?_ ?_ ?_
  · intro y _
    simp [SlabCache.unlink, prev, next]
  · intro y _
    simp [SlabCache.unlink, prev, next]
  · intro y member
    have other : ¬ B.head? = some y := fun e =>
      nodup.2.2 y member y (List.mem_cons_of_mem x (List.mem_of_mem_head? e)) rfl
    simp [SlabCache.unlink, prev, next, other]
  · intro y member
    have other : ¬ A.getLast? = some y := fun e =>
      nodup.2.2 y (List.mem_of_mem_getLast? e) y (List.mem_cons_of_mem x member) rfl
    simp [SlabCache.unlink, prev, next, other]

end Listed

/-! ## `alloc` -/

/-- A new slab -/
theorem Shape.grow {c : SlabCache} {F : List Nat} (shape : c.Shape [] F) {x : Nat} (usable : c.Usable x) :
    (c.grow x).Shape [x] F ∧ ((c.grow x).slab x).acnt = c.bps ∧ ((c.grow x).slab x).free = c.buffers x ∧
      (∀ y, y ≠ x → ((c.grow x).slab y).acnt = (c.slab y).acnt) ∧ (c.grow x).pages = x :: c.pages ∧
      (c.grow x).returned = c.returned ∧ (c.grow x).live = c.live ∧ (c.grow x).bps = c.bps := by
  have fresh : x ∉ F := fun member => usable.2 (shape.pages.mem_iff.mpr member)
  have head : c.head = F.head? := shape.head
  have apart : ¬ F.head? = some x := fun e => fresh (List.mem_of_mem_head? e)
  generalize made : (c.setSlab x fun _ =>
    { cache := c.self, prev := none, next := c.head, free := c.buffers x, acnt := c.bps : Slab }) = c₁
  have grown : c.grow x = { c₁.setPrev c.head (some x) with head := some x, curr := some x, pages := x :: c.pages } := by
    rw [← made]
    rfl
  have data := sameData_setPrev c₁ c.head (some x)
  have self : c₁.slab x = ⟨c.self, none, c.head, c.buffers x, c.bps⟩ := by
    rw [← made, slab_setSlab, if_pos rfl]
  have other : ∀ y, y ≠ x → c₁.slab y = c.slab y := by
    intro y ne
    rw [← made, slab_setSlab, if_neg ne]
  have fields : c₁.self = c.self ∧ c₁.bsz = c.bsz ∧ c₁.bps = c.bps ∧ c₁.live = c.live ∧ c₁.returned = c.returned := by
    rw [← made]
    exact ⟨rfl, rfl, rfl, rfl, rfl⟩
  have bufs : ∀ y, (c.grow x).buffers y = c.buffers y := by
    intro y
    rw [grown]
    show (c₁.setPrev c.head (some x)).buffers y = _
    rw [data.buffers]
    unfold SlabCache.buffers
    rw [fields.2.1, fields.2.2.1]
  have unborn : c.live.filter (fromBuffer · = x) = [] := by
    refine List.filter_eq_nil_iff.mpr fun p live => ?_
    have := shape.live p live
    simp only [decide_eq_true_eq]
    rintro rfl
    exact fresh this
  have acnt : ∀ y, ((c.grow x).slab y).acnt = (c₁.slab y).acnt := fun y => by rw [grown]; exact (data.slab y).2.2
  have free : ∀ y, ((c.grow x).slab y).free = (c₁.slab y).free := fun y => by rw [grown]; exact (data.slab y).2.1
  have live : (c.grow x).live = c.live := by
    rw [grown]
    exact data.books.2.2.trans fields.2.2.2.1
  refine ⟨⟨⟨?_, ?_, ?_, ?_, ?_, ?_, ?_, ?_, ?_, ?_, ?_⟩, ?_, ?_, ?_⟩, ?_, ?_, ?_, ?_, ?_, live, ?_⟩
  · -- in front of the old head
    rw [grown]
    refine Linked.insert (A := []) shape.linked shape.nodup ⟨?_, ?_⟩ (fun y member => (nomatch member)) (fun y member => ?_)
      (fun y member => (nomatch member)) fun y member => ?_
    · simp [head, apart, self]
    · simp [self, head]
    · have ne : y ≠ x := fun e => fresh (e ▸ member)
      simp [head, other y ne]
    · have ne : y ≠ x := fun e => fresh (e ▸ member)
      simp [other y ne]
  · rw [grown]
    rfl
  · exact List.nodup_cons.mpr ⟨fresh, shape.nodup⟩
  · rw [grown]
    exact shape.pages.cons x
  · rw [grown]
    show 0 < (c₁.setPrev c.head (some x)).bps ∧ 0 < (c₁.setPrev c.head (some x)).bsz ∧ _ * _ ≤ _
    rw [data.cache.2.1, data.cache.2.2, fields.2.1, fields.2.2.1]
    exact shape.geometry
  · intro y member
    rcases List.mem_cons.mp member with rfl | old
    · exact usable.1
    · exact shape.aligned y old
  · intro y member
    rw [grown]
    show ((c₁.setPrev c.head (some x)).slab y).cache = (c₁.setPrev c.head (some x)).self
    rw [(data.slab y).1, data.cache.1, fields.1]
    rcases List.mem_cons.mp member with rfl | old
    · rw [self]
    · rw [other y fun e => fresh (e ▸ old)]
      exact shape.mine y old
  · intro y member
    rw [free, acnt]
    rcases List.mem_cons.mp member with rfl | old
    · rw [self]
      simp [SlabCache.buffers]
    · rw [other y fun e => fresh (e ▸ old)]
      exact shape.count y old
  · intro y member
    rw [free, live, bufs]
    rcases List.mem_cons.mp member with rfl | old
    · rw [self, unborn, List.append_nil]
    · rw [other y fun e => fresh (e ▸ old)]
      exact shape.buffers y old
  · intro p member
    rw [live] at member
    exact List.mem_cons_of_mem x (shape.live p member)
  · rw [live]
    exact shape.nodupLive
  · rw [grown]
    rfl
  · intro y member
    obtain rfl := List.mem_singleton.mp member
    rw [acnt, self]
    exact shape.geometry.1
  · intro y member
    rw [acnt, other y fun e => fresh (e ▸ member)]
    exact shape.full y member
  · rw [acnt, self]
  · rw [free, self]
  · intro y ne
    rw [acnt, other y ne]
  · rw [grown]
  · rw [grown]
    exact data.books.2.1.trans fields.2.2.2.2
  · rw [grown]
    exact data.cache.2.2.trans fields.2.2.1

/-- The current slab gives away its first buffer. -/
theorem Shape.take {c : SlabCache} {P F : List Nat} {x : Nat} (shape : c.Shape (P ++ [x]) F) :
    ∃ p c', c.take = some (some p, c') ∧ (c'.Shape (P ++ [x]) F ∨ c'.Shape P (x :: F)) ∧
      p ∈ (c.slab x).free ∧ c'.live = p :: c.live ∧ c'.pages = c.pages ∧ c'.returned = c.returned ∧ c'.bps = c.bps ∧
      (c'.slab x).acnt + 1 = (c.slab x).acnt ∧ ∀ y, y ≠ x → (c'.slab y).acnt = (c.slab y).acnt := by
  have list : P ++ [x] ++ F = P ++ x :: F := by simp
  have member : x ∈ P ++ [x] ++ F := by simp
  have curr : c.curr = some x := by rw [shape.curr]; simp
  have pos : 0 < (c.slab x).acnt := shape.available x (by simp)
  obtain ⟨prev, next⟩ := shape.toListed.links list
  have notFull : (c.slab x).full = false := by
    simp only [Slab.full, decide_eq_false_iff_not]
    omega
  have nextFull : ((c.slab x).next.any fun y => !(c.slab y).full) = false := by
    rw [next]
    cases e : F.head? with
    | none => rfl
    | some y => simp [Slab.full, shape.full y (List.mem_of_mem_head? e)]
  obtain ⟨p, rest, chain⟩ : ∃ p rest, (c.slab x).free = p :: rest := by
    cases chain : (c.slab x).free with
    | nil =>
        have := shape.count x member
        rw [chain] at this
        simp only [List.length_nil] at this
        omega
    | cons p rest => exact ⟨p, rest, rfl⟩
  obtain ⟨own, dead⟩ := shape.toListed.free_mem member (by rw [chain]; exact List.mem_cons_self)
  generalize made : ({ c.setSlab x fun s => { s with free := rest, acnt := s.acnt - 1 } with live := p :: c.live } : SlabCache) = c₁
  have self : c₁.slab x = { c.slab x with free := rest, acnt := (c.slab x).acnt - 1 } := by
    rw [← made]
    simp [slab_setSlab]
  have other : ∀ y, y ≠ x → c₁.slab y = c.slab y := by
    intro y ne
    rw [← made]
    simp [slab_setSlab, ne]
  have live : c₁.live = p :: c.live := by rw [← made]
  have bufs : ∀ y, c₁.buffers y = c.buffers y := by intro y; rw [← made]; rfl
  have listed : c₁.Listed (P ++ [x] ++ F) := by
    refine ⟨?_, ?_, shape.nodup, ?_, ?_, shape.aligned, ?_, ?_, ?_, ?_, ?_⟩
    · refine shape.linked.congr fun y _ => ?_
      by_cases here : y = x
      · subst here
        rw [self]
        exact ⟨rfl, rfl⟩
      · rw [other y here]
        exact ⟨rfl, rfl⟩
    · rw [← made]
      exact shape.head
    · rw [← made]
      exact shape.pages
    · rw [← made]
      exact shape.geometry
    · intro y inside
      have same : c₁.self = c.self := by rw [← made]; rfl
      rw [same, ← shape.mine y inside]
      by_cases here : y = x
      · subst here
        rw [self]
      · rw [other y here]
    · intro y inside
      by_cases here : y = x
      · subst here
        have count := shape.count y inside
        rw [chain, List.length_cons] at count
        rw [self]
        show rest.length = (c.slab y).acnt - 1
        omega
      · rw [other y here]
        exact shape.count y inside
    · intro y inside
      rw [live, bufs]
      by_cases here : y = x
      · subst here
        have before := shape.buffers y inside
        rw [chain] at before
        rw [self, List.filter_cons_of_pos (by simpa using own)]
        exact List.perm_middle.trans before
      · rw [other y here, List.filter_cons_of_neg (by simpa [own] using Ne.symm here)]
        exact shape.buffers y inside
    · intro q inside
      rw [live] at inside
      rcases List.mem_cons.mp inside with rfl | old
      · rw [own]
        exact member
      · exact shape.live q old
    · rw [live]
      exact List.nodup_cons.mpr ⟨dead, shape.nodupLive⟩
  have fields : c₁.pages = c.pages ∧ c₁.returned = c.returned ∧ c₁.bps = c.bps ∧ c₁.curr = c.curr := by
    rw [← made]
    exact ⟨rfl, rfl, rfl, rfl⟩
  have acnt : (c₁.slab x).acnt + 1 = (c.slab x).acnt := by
    rw [self]
    show (c.slab x).acnt - 1 + 1 = _
    omega
  have apart : x ∉ P ∧ x ∉ F := by
    have nodup := shape.nodup
    rw [list] at nodup
    have parts := List.nodup_append.mp nodup
    exact ⟨fun inside => parts.2.2 x inside x List.mem_cons_self rfl, (List.nodup_cons.mp parts.2.1).1⟩
  have taken : c.take = some (some p, if (c₁.slab x).full then { c₁ with curr := (c₁.slab x).prev } else c₁) := by
    rw [← made]
    simp only [SlabCache.take, curr, notFull, nextFull, chain, Bool.false_eq_true, if_false]
  by_cases gone : (c₁.slab x).full = true
  · refine ⟨p, _, taken, ?_, by rw [chain]; exact List.mem_cons_self, ?_⟩
    · rw [if_pos gone]
      have zero : (c₁.slab x).acnt = 0 := by simpa [Slab.full] using gone
      refine Or.inr ⟨?_, ?_, ?_, ?_⟩
      · rw [← list]
        exact listed.relink ⟨⟨rfl, rfl, rfl⟩, ⟨rfl, rfl, rfl⟩, fun _ => ⟨rfl, rfl, rfl⟩⟩ (List.Perm.refl _) listed.linked
          listed.head
      · show (c₁.slab x).prev = _
        rw [self]
        exact prev
      · intro y inside
        show 0 < (c₁.slab y).acnt
        rw [other y fun e => apart.1 (e ▸ inside)]
        exact shape.available y (List.mem_append_left _ inside)
      · intro y inside
        show (c₁.slab y).acnt = 0
        rcases List.mem_cons.mp inside with rfl | old
        · exact zero
        · rw [other y fun e => apart.2 (e ▸ old)]
          exact shape.full y old
    · rw [if_pos gone]
      exact ⟨live, fields.1, fields.2.1, fields.2.2.1, acnt, fun y ne => by rw [other y ne]⟩
  · refine ⟨p, _, taken, ?_, by rw [chain]; exact List.mem_cons_self, ?_⟩
    · rw [if_neg gone]
      refine Or.inl ⟨listed, fields.2.2.2.trans shape.curr, ?_, ?_⟩
      · intro y inside
        by_cases here : y = x
        · subst here
          simp only [Slab.full, decide_eq_true_eq] at gone
          omega
        · rw [other y here]
          exact shape.available y inside
      · intro y inside
        rw [other y fun e => apart.2 (e ▸ inside)]
        exact shape.full y inside
    · rw [if_neg gone]
      exact ⟨live, fields.1, fields.2.1, fields.2.2.1, acnt, fun y ne => by rw [other y ne]⟩

/-! ## `free` -/

section Give

variable {c : SlabCache} {L : List Nat} {p : Nat}

theorem slab_give_self (c : SlabCache) (p : Nat) : (c.give p).slab (fromBuffer p) =
    { c.slab (fromBuffer p) with free := p :: (c.slab (fromBuffer p)).free, acnt := (c.slab (fromBuffer p)).acnt + 1 } := by
  simp [give, slab_setSlab]

theorem slab_give_other (c : SlabCache) {p y : Nat} (other : y ≠ fromBuffer p) : (c.give p).slab y = c.slab y := by
  simp [give, slab_setSlab, other]

/-- A live buffer goes back to its slab. -/
theorem Listed.give (listed : c.Listed L) (live : p ∈ c.live) : (c.give p).Listed L where
  linked := by
    refine listed.linked.congr fun y _ => ?_
    by_cases here : y = fromBuffer p
    · subst here
      rw [slab_give_self]
      exact ⟨rfl, rfl⟩
    · rw [slab_give_other c here]
      exact ⟨rfl, rfl⟩
  head := listed.head
  nodup := listed.nodup
  pages := listed.pages
  geometry := listed.geometry
  aligned := listed.aligned
  mine := by
    intro y member
    by_cases here : y = fromBuffer p
    · subst here
      rw [slab_give_self]
      exact listed.mine _ member
    · rw [slab_give_other c here]
      exact listed.mine y member
  count := by
    intro y member
    by_cases here : y = fromBuffer p
    · subst here
      rw [slab_give_self]
      exact congrArg (· + 1) (listed.count _ member)
    · rw [slab_give_other c here]
      exact listed.count y member
  buffers := by
    intro y member
    show (((c.give p).slab y).free ++ (c.live.erase p).filter (fromBuffer · = y)).Perm (c.buffers y)
    by_cases here : y = fromBuffer p
    · subst here
      have before := listed.buffers _ member
      have back : (c.live.filter (fromBuffer · = fromBuffer p)).Perm
          (p :: (c.live.erase p).filter (fromBuffer · = fromBuffer p)) := by
        have whole := (List.perm_cons_erase live).filter (fromBuffer · = fromBuffer p)
        rwa [List.filter_cons_of_pos (by simp)] at whole
      rw [slab_give_self]
      exact (List.perm_middle.symm.trans (back.symm.append_left _)).trans before
    · have same : (c.live.erase p).filter (fromBuffer · = y) = c.live.filter (fromBuffer · = y) := by
        rw [List.Nodup.erase_eq_filter listed.nodupLive, List.filter_filter]
        refine List.filter_congr fun q _ => ?_
        by_cases own : fromBuffer q = y
        · have : q ≠ p := by
            rintro rfl
            exact here own.symm
          simp [own, this]
        · simp [own]
      rw [slab_give_other c here, same]
      exact listed.buffers y member
  live := fun q member => listed.live q (List.mem_of_mem_erase member)
  nodupLive := listed.nodupLive.erase p

end Give

/-- A slab that has all its buffers has none of them live. -/
theorem Listed.no_live {c : SlabCache} {L : List Nat} (listed : c.Listed L) {x : Nat} (member : x ∈ L) :
    (c.slab x).acnt = c.bps ↔ ∀ p ∈ c.live, fromBuffer p ≠ x := by
  have sum := (listed.buffers x member).length_eq
  have all : (c.buffers x).length = c.bps := by simp [SlabCache.buffers]
  rw [List.length_append, listed.count x member, all] at sum
  have none_iff : (c.live.filter (fromBuffer · = x)).length = 0 ↔ ∀ p ∈ c.live, fromBuffer p ≠ x := by
    rw [List.length_eq_zero_iff, List.filter_eq_nil_iff]
    simp
  rw [← none_iff]
  omega

theorem sameData_unlink (c : SlabCache) (x : Nat) : SameData c (c.unlink x) :=
  (sameData_setNext c _ _).trans (sameData_setPrev _ _ _)

theorem setNext_ends (c : SlabCache) (o v : Option Nat) : (c.setNext o v).head = c.head ∧ (c.setNext o v).curr = c.curr := by
  cases o with
  | none => exact ⟨rfl, rfl⟩
  | some x => exact ⟨rfl, rfl⟩

theorem setPrev_ends (c : SlabCache) (o v : Option Nat) : (c.setPrev o v).head = c.head ∧ (c.setPrev o v).curr = c.curr := by
  cases o with
  | none => exact ⟨rfl, rfl⟩
  | some x => exact ⟨rfl, rfl⟩

theorem unlink_ends (c : SlabCache) (x : Nat) : (c.unlink x).head = c.head ∧ (c.unlink x).curr = c.curr :=
  ⟨(setPrev_ends _ _ _).1.trans (setNext_ends _ _ _).1, (setPrev_ends _ _ _).2.trans (setNext_ends _ _ _).2⟩

/-- `unlink` neither reads nor writes `curr` and `head`. -/
theorem unlink_ends_comm (c : SlabCache) (x : Nat) (curr head : Option Nat) :
    ({ c with curr, head } : SlabCache).unlink x = { c.unlink x with curr, head } := by
  unfold SlabCache.unlink
  cases (c.slab x).prev <;> cases (c.slab x).next <;> rfl

/-- What `release` leaves -/
theorem release_eq {c : SlabCache} {A B : List Nat} {x : Nat} (listed : c.Listed (A ++ x :: B)) :
    c.release x = { c.unlink x with
      curr := if c.curr = some x then A.getLast? else c.curr
      head := (A ++ B).head?
      pages := c.pages.erase x
      returned := x :: c.returned } := by
  obtain ⟨prev, next⟩ := listed.links rfl
  have head : (if c.head = some x then (c.slab x).next else c.head) = (A ++ B).head? := by
    rw [listed.head, next]
    cases A with
    | nil => simp
    | cons y A =>
        have apart := (List.nodup_cons.mp listed.nodup).1
        have ne : y ≠ x := fun e => apart (by simp [e])
        simp [ne]
  have updated : c.release x =
      { ({ c with curr := if c.curr = some x then (c.slab x).prev else c.curr
                  head := if c.head = some x then (c.slab x).next else c.head } : SlabCache).unlink x with
        pages := c.pages.erase x, returned := x :: c.returned } := by
    unfold release
    by_cases isCurr : c.curr = some x
    · by_cases isHead : c.head = some x
      · simp only [if_pos isCurr, if_pos isHead]
      · simp only [if_pos isCurr, if_neg isHead]
    · by_cases isHead : c.head = some x
      · simp only [if_neg isCurr, if_pos isHead]
      · simp only [if_neg isCurr, if_neg isHead]
  rw [updated, unlink_ends_comm, head, prev]

/-- An empty slab leaves the list. -/
theorem Listed.release {c : SlabCache} {A B : List Nat} {x : Nat} (listed : c.Listed (A ++ x :: B))
    (empty : (c.slab x).acnt = c.bps) : (c.release x).Listed (A ++ B) := by
  have data := sameData_unlink c x
  have inside : ∀ {y}, y ∈ A ++ B → y ∈ A ++ x :: B := fun member =>
    ((List.sublist_cons_self x B).append_left A).subset member
  have middle : (A ++ x :: B).Perm (x :: (A ++ B)) := List.perm_middle
  have nodup := List.nodup_cons.mp (middle.nodup_iff.mp listed.nodup)
  rw [release_eq listed]
  refine ⟨listed.unlink_linked, rfl, nodup.2, ?_, ?_, fun y member => listed.aligned y (inside member), ?_, ?_, ?_, ?_, ?_⟩
  · have := (listed.pages.trans middle).erase x
    rwa [List.erase_cons_head] at this
  · show 0 < (c.unlink x).bps ∧ 0 < (c.unlink x).bsz ∧ _ * _ ≤ _
    rw [data.cache.2.1, data.cache.2.2]
    exact listed.geometry
  · intro y member
    show ((c.unlink x).slab y).cache = (c.unlink x).self
    rw [(data.slab y).1, data.cache.1]
    exact listed.mine y (inside member)
  · intro y member
    show ((c.unlink x).slab y).free.length = ((c.unlink x).slab y).acnt
    rw [(data.slab y).2.1, (data.slab y).2.2]
    exact listed.count y (inside member)
  · intro y member
    show (((c.unlink x).slab y).free ++ (c.unlink x).live.filter (fromBuffer · = y)).Perm ((c.unlink x).buffers y)
    rw [(data.slab y).2.1, data.books.2.2, data.buffers]
    exact listed.buffers y (inside member)
  · intro p member
    have old : p ∈ c.live := by
      rw [← data.books.2.2]
      exact member
    have other := (listed.no_live (by simp)).mp empty p old
    exact (List.mem_cons.mp (middle.mem_iff.mp (listed.live p old))).resolve_left other
  · show (c.unlink x).live.Nodup
    rw [data.books.2.2]
    exact listed.nodupLive

/-- `requeue` on the list: the slab comes behind `curr`. -/
theorem requeue_spec {c : SlabCache} {P F : List Nat} {x z : Nat}
    (linked : Linked (fun y => (c.slab y).prev) (fun y => (c.slab y).next) (P ++ z :: F)) (nodup : (P ++ z :: F).Nodup)
    (fresh : x ∉ P ++ z :: F) (curr : c.curr = P.getLast?) (head : c.head = (P ++ z :: F).head?) :
    ∃ c', c.requeue x = some c' ∧ SameData c c' ∧ c'.head = (P ++ x :: z :: F).head? ∧
      Linked (fun y => (c'.slab y).prev) (fun y => (c'.slab y).next) (P ++ x :: z :: F) := by
  have notZ : z ≠ x := by
    rintro rfl
    exact fresh (by simp)
  have parts := List.nodup_append.mp nodup
  cases last : P.getLast? with
  | none =>
      obtain rfl := List.getLast?_eq_none_iff.mp last
      rw [last] at curr
      have front : ((c.setPrev (some x) none).setNext (some x) c.head).head = some z :=
        ((setNext_ends _ _ _).1.trans (setPrev_ends _ _ _).1).trans head
      refine ⟨{ ((c.setPrev (some x) none).setNext (some x) c.head).setPrev (some z) (some x) with head := some x },
        ?_, ?_, rfl, ?_⟩
      · simp only [requeue, curr, front]
      · have data := ((sameData_setPrev c (some x) none).trans (sameData_setNext _ (some x) c.head)).trans
          (sameData_setPrev _ (some z) (some x))
        exact ⟨data.cache, data.books, data.slab⟩
      · refine Linked.insert (A := []) linked nodup ⟨?_, ?_⟩ (fun y member => (nomatch member)) (fun y member => ?_)
          (fun y member => (nomatch member)) fun y member => ?_
        · simp [notZ]
        · simp [head]
        · have ne : ¬ x = y := fun e => fresh (e ▸ member)
          simp [ne]
        · have ne : ¬ x = y := fun e => fresh (e ▸ member)
          simp [ne]
  | some y =>
      rw [last] at curr
      have memberY : y ∈ P := List.mem_of_mem_getLast? last
      have notY : y ≠ x := fun e => fresh (e ▸ List.mem_append_left _ memberY)
      have apart : y ≠ z := parts.2.2 y memberY z List.mem_cons_self
      obtain ⟨init, rfl⟩ := List.getLast?_eq_some_iff.mp last
      have next : (c.slab y).next = some z := by
        have whole : init ++ [y] ++ z :: F = init ++ y :: z :: F := by simp
        rw [whole] at linked
        exact linked.at_.2
      have succ : (((c.setPrev (some x) (some y)).setNext (some x) (c.slab y).next).slab y).next = some z := by
        simp [Ne.symm notY, next]
      refine ⟨(((c.setPrev (some x) (some y)).setNext (some x) (c.slab y).next).setPrev (some z) (some x)).setNext (some y)
        (some x), ?_, ?_, ?_, ?_⟩
      · simp only [requeue, curr, succ]
      · exact (((sameData_setPrev c _ _).trans (sameData_setNext _ _ _)).trans (sameData_setPrev _ _ _)).trans
          (sameData_setNext _ _ _)
      · rw [(setNext_ends _ _ _).1, (setPrev_ends _ _ _).1, (setNext_ends _ _ _).1, (setPrev_ends _ _ _).1, head]
        cases init with
        | nil => rfl
        | cons w init => rfl
      · refine Linked.insert linked nodup ⟨?_, ?_⟩ (fun w member => ?_) (fun w member => ?_) (fun w member => ?_)
          fun w member => ?_
        · simp [notZ]
        · simp [notY, next]
        · have ne : ¬ x = w := fun e => fresh (e ▸ List.mem_append_left _ member)
          simp [ne]
        · have ne : ¬ x = w := fun e => fresh (e ▸ List.mem_append_right _ member)
          simp [ne]
        · have ne : ¬ x = w := fun e => fresh (e ▸ List.mem_append_left _ member)
          have other : ¬ z = w := fun e => parts.2.2 w member z List.mem_cons_self e.symm
          simp [ne, other]
        · have ne : ¬ x = w := fun e => fresh (e ▸ List.mem_append_right _ member)
          have other : ¬ y = w := fun e => parts.2.2 y memberY w member e
          simp [ne, other]

/-- **A full slab gets a free buffer back** and becomes the last of the partial ones. -/
theorem Listed.reopen {c : SlabCache} {P F₁ F₂ : List Nat} {x : Nat} (listed : c.Listed (P ++ (F₁ ++ x :: F₂)))
    (curr : c.curr = P.getLast?) (available : ∀ y ∈ P, 0 < (c.slab y).acnt) (full : ∀ y ∈ F₁, (c.slab y).acnt = 0) :
    ∃ c', c.reopen x = some c' ∧ SameData c c' ∧ c'.curr = some x ∧ c'.Listed (P ++ [x] ++ (F₁ ++ F₂)) := by
  have whole : P ++ (F₁ ++ x :: F₂) = P ++ F₁ ++ x :: F₂ := by simp
  have prev := (listed.links whole).1
  have goal : P ++ [x] ++ (F₁ ++ F₂) = P ++ x :: (F₁ ++ F₂) := by simp
  rw [goal]
  cases F₁ with
  | nil =>
      -- the slab stands right behind the partial ones
      have free : ((c.slab x).prev.any fun y => (c.slab y).full) = false := by
        rw [prev, List.append_nil]
        cases last : P.getLast? with
        | none => rfl
        | some y =>
            have := available y (List.mem_of_mem_getLast? last)
            simp only [Option.any_some, Slab.full, decide_eq_false_iff_not]
            omega
      refine ⟨{ c with curr := some x }, ?_, ⟨⟨rfl, rfl, rfl⟩, ⟨rfl, rfl, rfl⟩, fun _ => ⟨rfl, rfl, rfl⟩⟩, rfl, ?_⟩
      · simp only [SlabCache.reopen, free]
        rfl
      · exact listed.relink ⟨⟨rfl, rfl, rfl⟩, ⟨rfl, rfl, rfl⟩, fun _ => ⟨rfl, rfl, rfl⟩⟩ (List.Perm.refl _) listed.linked
          listed.head
  | cons z F₁ =>
      have blocked : ((c.slab x).prev.any fun y => (c.slab y).full) = true := by
        cases last : (z :: F₁).getLast? with
        | none => simp at last
        | some y =>
            rw [prev, List.getLast?_append, last]
            simpa [Slab.full] using full y (List.mem_of_mem_getLast? last)
      have nodup := listed.nodup
      rw [whole] at nodup
      have middle : (P ++ (z :: F₁) ++ x :: F₂).Perm (x :: (P ++ (z :: F₁) ++ F₂)) := List.perm_middle
      obtain ⟨fresh, rest⟩ := List.nodup_cons.mp (middle.nodup_iff.mp nodup)
      have listed' := listed
      rw [whole] at listed'
      have shape : P ++ (z :: F₁) ++ F₂ = P ++ z :: (F₁ ++ F₂) := by simp
      have linked := listed'.unlink_linked
      rw [shape] at linked fresh rest
      obtain ⟨c', done, data, head, linked'⟩ := requeue_spec linked rest fresh ((unlink_ends c x).2.trans curr)
        (by
          rw [(unlink_ends c x).1, listed.head]
          cases P with
          | nil => rfl
          | cons w P => rfl)
      have all := (sameData_unlink c x).trans data
      refine ⟨{ c' with curr := some x }, ?_, ⟨all.cache, all.books, all.slab⟩, rfl, ?_⟩
      · simp only [SlabCache.reopen, blocked, if_true, done, Option.map_some]
      · refine listed.relink ⟨all.cache, all.books, all.slab⟩ ?_ linked' head
        rw [whole]
        refine List.Perm.trans ?_ middle.symm
        rw [shape]
        exact List.perm_middle

/-! ## Steps -/

/-- The invariant: the list has its shape, and no slab is kept without need. -/
def Sound (c : SlabCache) : Prop := (∃ P F, c.Shape P F) ∧ c.Busy

inductive Op
  | alloc (answer : Option Nat)
  | free (p : Nat)

def step : Op → SlabCache → Option SlabCache
  | .alloc answer, c => (c.alloc answer).map Prod.snd
  | .free p, c => c.free p

/-- Only live buffers are freed. -/
def Allowed (c : SlabCache) : Op → Prop
  | .alloc _ => True
  | .free p => p ∈ c.live

/-- What `alloc` promises -/
structure Allocated (c : SlabCache) (answer result : Option Nat) (c' : SlabCache) : Prop where
  /-- `nullptr` exactly when there is no free buffer and no page -/
  refused : result = none ↔ (∀ x ∈ c.pages, (c.slab x).free = []) ∧ ∀ x, answer = some x → ¬ c.Usable x
  unchanged : result = none → c' = c
  /-- The buffer was not live; it was on the chain of the current slab, or is one of a new slab. -/
  given : ∀ p, result = some p → p ∉ c.live ∧ c'.live = p :: c.live ∧
    (∀ x, c.curr = some x → p ∈ (c.slab x).free ∧ c'.pages = c.pages) ∧
    (c.curr = none → ∃ x, answer = some x ∧ p ∈ c.buffers x ∧ c'.pages = x :: c.pages)
  returned : c'.returned = c.returned

/-- What `free` promises: the slab goes back exactly with its last live buffer. -/
structure Freed (c : SlabCache) (p : Nat) (c' : SlabCache) : Prop where
  live : c'.live = c.live.erase p
  last : (∀ q ∈ c.live, q ≠ p → fromBuffer q ≠ fromBuffer p) →
    c'.returned = fromBuffer p :: c.returned ∧ c'.pages = c.pages.erase (fromBuffer p) ∧ fromBuffer p ∉ c'.pages
  kept : (∃ q ∈ c.live, q ≠ p ∧ fromBuffer q = fromBuffer p) → c'.returned = c.returned ∧ c'.pages = c.pages

/-- `curr` is null exactly when there is no free buffer. -/
theorem Shape.curr_none_iff {c : SlabCache} {P F : List Nat} (shape : c.Shape P F) :
    c.curr = none ↔ ∀ x ∈ c.pages, (c.slab x).free = [] := by
  rw [shape.curr, List.getLast?_eq_none_iff]
  constructor
  · rintro rfl x member
    have inside : x ∈ F := shape.pages.mem_iff.mp member
    have count := shape.count x inside
    rw [shape.full x inside] at count
    exact List.length_eq_zero_iff.mp count
  · intro none
    refine List.eq_nil_iff_forall_not_mem.mpr fun x inside => ?_
    have member : x ∈ P ++ F := List.mem_append_left F inside
    have count := shape.count x member
    rw [none x (shape.pages.mem_iff.mpr member)] at count
    exact absurd (shape.available x inside) (by simp [← count])

theorem Sound.alloc {c : SlabCache} (sound : c.Sound) (answer : Option Nat) :
    ∃ result c', c.alloc answer = some (result, c') ∧ c'.Sound ∧ Allocated c answer result c' := by
  obtain ⟨⟨P, F, shape⟩, busy⟩ := sound
  have empty := shape.curr_none_iff
  cases last : c.curr with
  | some x =>
      have some_last := last
      rw [shape.curr] at last
      obtain ⟨P, rfl⟩ := List.getLast?_eq_some_iff.mp last
      obtain ⟨p, c', taken, shape', free, live, pages, returned, bps, fewer, others⟩ := shape.take
      have dead := (shape.toListed.free_mem (by simp) free).2
      refine ⟨some p, c', by simp only [SlabCache.alloc, some_last, taken], ⟨?_, ?_⟩, ⟨?_, ?_, ?_, returned⟩⟩
      · rcases shape' with shape' | shape'
        · exact ⟨_, _, shape'⟩
        · exact ⟨_, _, shape'⟩
      · intro y member
        rw [pages] at member
        have before := busy y member
        rw [bps]
        by_cases here : y = x
        · subst here
          omega
        · rwa [others y here]
      · constructor
        · intro e
          cases e
        · rintro ⟨none, -⟩
          rw [empty.mpr none] at some_last
          cases some_last
      · intro e
        cases e
      · rintro q ⟨⟩
        refine ⟨dead, live, fun y curr => ?_, fun curr => ?_⟩
        · obtain rfl := Option.some.inj (some_last.symm.trans curr)
          exact ⟨free, pages⟩
        · rw [curr] at some_last
          cases some_last
  | none =>
      have full := empty.mp last
      by_cases found : ∃ x, answer = some x ∧ c.Usable x
      · obtain ⟨x, rfl, usable⟩ := found
        have none_last := last
        rw [shape.curr] at last
        obtain rfl := List.getLast?_eq_none_iff.mp last
        obtain ⟨grown, whole, chain, same, pages, returned, live, bps⟩ := shape.grow usable
        obtain ⟨p, c', taken, shape', free, live', pages', returned', bps', fewer, others⟩ := Shape.take (P := []) grown
        have dead := (grown.toListed.free_mem (by simp) free).2
        rw [chain] at free
        rw [live] at dead live'
        refine ⟨some p, c', by simp only [SlabCache.alloc, none_last, if_pos usable, taken], ⟨?_, ?_⟩,
          ⟨?_, ?_, ?_, returned'.trans returned⟩⟩
        · rcases shape' with shape' | shape'
          · exact ⟨_, _, shape'⟩
          · exact ⟨_, _, shape'⟩
        · intro y member
          rw [pages', pages] at member
          rw [bps', bps]
          by_cases here : y = x
          · subst here
            omega
          · rw [others y here, same y here]
            exact busy y ((List.mem_cons.mp member).resolve_left here)
        · constructor
          · intro e
            cases e
          · rintro ⟨-, none⟩
            exact absurd usable (none x rfl)
        · intro e
          cases e
        · rintro q ⟨⟩
          refine ⟨dead, live', fun y curr => ?_, fun _ => ⟨x, rfl, free, pages'.trans pages⟩⟩
          rw [curr] at none_last
          cases none_last
      · have refused : c.alloc answer = some (none, c) := by
          cases answer with
          | none => simp only [SlabCache.alloc, last]
          | some x => simp only [SlabCache.alloc, last, if_neg fun usable => found ⟨x, rfl, usable⟩]
        refine ⟨none, c, refused, ⟨⟨P, F, shape⟩, busy⟩, ⟨?_, fun _ => rfl, ?_, rfl⟩⟩
        · exact ⟨fun _ => ⟨full, fun x e usable => found ⟨x, e, usable⟩⟩, fun _ => rfl⟩
        · intro p e
          cases e

/-- The three transitions -/
theorem free_eq (c : SlabCache) (p : Nat) (mine : (c.slab (fromBuffer p)).cache = c.self) :
    c.free p = if ((c.give p).slab (fromBuffer p)).acnt = c.bps then some ((c.give p).release (fromBuffer p))
      else if (c.slab (fromBuffer p)).acnt = 0 then (c.give p).reopen (fromBuffer p) else some (c.give p) := by
  have same : (c.give p).bps = c.bps := rfl
  simp only [SlabCache.free, if_pos mine, Slab.empty, Slab.full, decide_eq_true_eq, same]

/-- Apart from the slab that becomes empty, the slabs of a released cache are the old ones. -/
structure Released (c : SlabCache) (x : Nat) (c' : SlabCache) : Prop where
  live : c'.live = c.live
  bps : c'.bps = c.bps
  books : c'.returned = x :: c.returned ∧ c'.pages = c.pages.erase x
  acnt : ∀ y, (c'.slab y).acnt = (c.slab y).acnt

theorem Listed.released {c : SlabCache} {A B : List Nat} {x : Nat} (listed : c.Listed (A ++ x :: B)) :
    Released c x (c.release x) := by
  have data := sameData_unlink c x
  rw [release_eq listed]
  exact ⟨data.books.2.2, data.cache.2.2, ⟨rfl, rfl⟩, fun y => (data.slab y).2.2⟩

theorem Listed.release_curr {c : SlabCache} {A B : List Nat} {x : Nat} (listed : c.Listed (A ++ x :: B)) :
    (c.release x).curr = if c.curr = some x then A.getLast? else c.curr := by
  rw [release_eq listed]

/-- **A slab becomes empty** and leaves the list. -/
theorem Shape.release {c : SlabCache} {P F : List Nat} (shape : c.Shape P F) {p : Nat} (live : p ∈ c.live)
    (empty : ((c.give p).slab (fromBuffer p)).acnt = c.bps) :
    (∃ P' F', ((c.give p).release (fromBuffer p)).Shape P' F') ∧
      Released (c.give p) (fromBuffer p) ((c.give p).release (fromBuffer p)) := by
  have member := shape.live p live
  have given := shape.toListed.give live
  have other : ∀ y, y ≠ fromBuffer p → (c.give p).slab y = c.slab y := fun y ne => slab_give_other c ne
  generalize fromBuffer p = x at *
  obtain ⟨nodupP, nodupF, disjoint⟩ := List.nodup_append.mp shape.nodup
  rcases List.mem_append.mp member with inP | inF
  · obtain ⟨A, B, rfl⟩ := List.append_of_mem inP
    have apart := (List.nodup_cons.mp (List.perm_middle.nodup_iff.mp nodupP)).1
    rw [List.append_assoc, List.cons_append] at given
    have books := given.released
    refine ⟨⟨A ++ B, F, ?_, ?_, ?_, ?_⟩, books⟩
    · rw [List.append_assoc]
      exact given.release empty
    · rw [given.release_curr]
      show (if c.curr = some x then A.getLast? else c.curr) = _
      rw [shape.curr]
      cases last : B.getLast? with
      | none =>
          obtain rfl := List.getLast?_eq_none_iff.mp last
          simp
      | some z =>
          have ne : z ≠ x := fun e => apart (e ▸ List.mem_append_right A (List.mem_of_mem_getLast? last))
          simp [List.getLast?_cons, last, ne]
    · intro y inside
      rw [books.acnt, other y fun e => apart (e ▸ inside)]
      exact shape.available y (((List.sublist_cons_self x B).append_left A).subset inside)
    · intro y inside
      rw [books.acnt, other y fun e => disjoint x inP y inside e.symm]
      exact shape.full y inside
  · obtain ⟨A, B, rfl⟩ := List.append_of_mem inF
    have apart := (List.nodup_cons.mp (List.perm_middle.nodup_iff.mp nodupF)).1
    have notCurr : ¬ c.curr = some x := by
      rw [shape.curr]
      exact fun e => disjoint x (List.mem_of_mem_getLast? e) x inF rfl
    rw [← List.append_assoc] at given
    have books := given.released
    refine ⟨⟨P, A ++ B, ?_, ?_, ?_, ?_⟩, books⟩
    · rw [← List.append_assoc]
      exact given.release empty
    · rw [given.release_curr]
      show (if c.curr = some x then (P ++ A).getLast? else c.curr) = _
      rw [if_neg notCurr, shape.curr]
    · intro y inside
      rw [books.acnt, other y fun e => disjoint y inside x inF e]
      exact shape.available y inside
    · intro y inside
      rw [books.acnt, other y fun e => apart (e ▸ inside)]
      exact shape.full y (((List.sublist_cons_self x B).append_left A).subset inside)

/-- **A full slab becomes partial** and moves to the partial ones. -/
theorem Shape.reopen {c : SlabCache} {P F : List Nat} (shape : c.Shape P F) {p : Nat} (live : p ∈ c.live)
    (was : (c.slab (fromBuffer p)).acnt = 0) :
    ∃ c', (c.give p).reopen (fromBuffer p) = some c' ∧ SameData (c.give p) c' ∧ ∃ P' F', c'.Shape P' F' := by
  have member := shape.live p live
  have given := shape.toListed.give live
  have self : ((c.give p).slab (fromBuffer p)).acnt = (c.slab (fromBuffer p)).acnt + 1 := by rw [slab_give_self]
  have other : ∀ y, y ≠ fromBuffer p → (c.give p).slab y = c.slab y := fun y ne => slab_give_other c ne
  generalize fromBuffer p = x at *
  obtain ⟨-, nodupF, disjoint⟩ := List.nodup_append.mp shape.nodup
  have inF : x ∈ F := by
    refine (List.mem_append.mp member).resolve_left fun inP => ?_
    have := shape.available x inP
    omega
  obtain ⟨F₁, F₂, rfl⟩ := List.append_of_mem inF
  have apart := (List.nodup_cons.mp (List.perm_middle.nodup_iff.mp nodupF)).1
  have avail : ∀ y ∈ P, 0 < ((c.give p).slab y).acnt := by
    intro y inside
    rw [other y fun e => disjoint y inside x inF e]
    exact shape.available y inside
  have full : ∀ y ∈ F₁ ++ F₂, ((c.give p).slab y).acnt = 0 := by
    intro y inside
    rw [other y fun e => apart (e ▸ inside)]
    exact shape.full y (((List.sublist_cons_self x F₂).append_left F₁).subset inside)
  obtain ⟨c', done, data, curr, listed⟩ := given.reopen (c := c.give p) shape.curr avail fun y inside =>
    full y (List.mem_append_left F₂ inside)
  refine ⟨c', done, data, P ++ [x], F₁ ++ F₂, listed, ?_, ?_, ?_⟩
  · rw [curr]
    simp
  · intro y inside
    rw [(data.slab y).2.2]
    rcases List.mem_append.mp inside with old | new
    · exact avail y old
    · obtain rfl := List.mem_singleton.mp new
      omega
  · intro y inside
    rw [(data.slab y).2.2]
    exact full y inside

/-- A partial slab stays where it is. -/
theorem Shape.give {c : SlabCache} {P F : List Nat} (shape : c.Shape P F) {p : Nat} (live : p ∈ c.live)
    (was : (c.slab (fromBuffer p)).acnt ≠ 0) : (c.give p).Shape P F := by
  refine ⟨shape.toListed.give live, shape.curr, ?_, ?_⟩
  · intro y inside
    by_cases here : y = fromBuffer p
    · subst here
      rw [slab_give_self]
      exact Nat.succ_pos _
    · rw [slab_give_other c here]
      exact shape.available y inside
  · intro y inside
    rw [slab_give_other c fun e => was (e ▸ shape.full y inside)]
    exact shape.full y inside

/-- The slab has all its buffers back exactly when the others are not live. -/
theorem Shape.give_whole_iff {c : SlabCache} {P F : List Nat} (shape : c.Shape P F) {p : Nat} (live : p ∈ c.live) :
    ((c.give p).slab (fromBuffer p)).acnt = c.bps ↔ ∀ q ∈ c.live, q ≠ p → fromBuffer q ≠ fromBuffer p := by
  have given := (shape.toListed.give live).no_live (shape.live p live)
  have erased : (c.give p).live = c.live.erase p := rfl
  rw [erased] at given
  refine Iff.trans given ⟨fun all q member ne => ?_, fun all q member => ?_⟩
  · exact all q ((List.mem_erase_of_ne ne).mpr member)
  · obtain ⟨ne, old⟩ := (shape.nodupLive.mem_erase_iff).mp member
    exact all q old ne

theorem Sound.free {c : SlabCache} (sound : c.Sound) {p : Nat} (live : p ∈ c.live) :
    ∃ c', c.free p = some c' ∧ c'.Sound ∧ Freed c p c' := by
  obtain ⟨⟨P, F, shape⟩, busy⟩ := sound
  have member := shape.live p live
  have iff := shape.give_whole_iff live
  have e := free_eq c p (shape.mine _ member)
  have inside : fromBuffer p ∈ c.pages := shape.pages.mem_iff.mpr member
  have nodup : c.pages.Nodup := shape.pages.nodup_iff.mpr shape.nodup
  -- a slab that keeps its place is not empty
  have others : ((c.give p).slab (fromBuffer p)).acnt ≠ c.bps → ∀ y ∈ c.pages, ((c.give p).slab y).acnt < c.bps := by
    intro ne y paged
    by_cases here : y = fromBuffer p
    · subst here
      have := busy _ paged
      rw [slab_give_self] at ne ⊢
      show (c.slab (fromBuffer p)).acnt + 1 < c.bps
      have : (c.slab (fromBuffer p)).acnt + 1 ≠ c.bps := ne
      omega
    · rw [slab_give_other c here]
      exact busy y paged
  by_cases whole : ((c.give p).slab (fromBuffer p)).acnt = c.bps
  · rw [if_pos whole] at e
    obtain ⟨shape', books⟩ := shape.release live whole
    refine ⟨_, e, ⟨shape', ?_⟩, books.live, fun _ => ⟨books.books.1, books.books.2, ?_⟩, ?_⟩
    · intro y paged
      rw [books.books.2] at paged
      obtain ⟨ne, old⟩ := (nodup.mem_erase_iff).mp paged
      rw [books.acnt, books.bps, slab_give_other c ne]
      exact busy y old
    · rw [books.books.2]
      exact fun paged => (nodup.mem_erase_iff.mp paged).1 rfl
    · rintro ⟨q, old, ne, same⟩
      exact absurd same (iff.mp whole q old ne)
  · rw [if_neg whole] at e
    by_cases was : (c.slab (fromBuffer p)).acnt = 0
    · rw [if_pos was] at e
      obtain ⟨c', done, data, shape'⟩ := shape.reopen live was
      refine ⟨c', e.trans done, ⟨shape', ?_⟩, data.books.2.2, fun all => absurd (iff.mpr all) whole,
        fun _ => ⟨data.books.2.1, data.books.1⟩⟩
      intro y paged
      rw [data.books.1] at paged
      rw [(data.slab y).2.2, data.cache.2.2]
      exact others whole y paged
    · rw [if_neg was] at e
      exact ⟨_, e, ⟨⟨P, F, shape.give live was⟩, others whole⟩, rfl, fun all => absurd (iff.mpr all) whole,
        fun _ => ⟨rfl, rfl⟩⟩

/-! ## Runs -/

theorem sound_create (self s a : Nat) (slab : Nat → Slab) (fits : 0 < (create self s a slab).bps) :
    (create self s a slab).Sound := by
  have size : 0 < (create self s a slab).bsz := by
    refine Nat.pos_of_ne_zero fun zero => ?_
    have none : (create self s a slab).bps = (slabBytes - metaBytes) / (create self s a slab).bsz := rfl
    rw [zero, Nat.div_zero] at none
    omega
  have listed : (create self s a slab).Listed ([] ++ []) := by
    refine ⟨trivial, rfl, List.nodup_nil, List.Perm.nil, ⟨fits, size, Nat.div_mul_le_self _ _⟩, ?_, ?_, ?_, ?_, ?_,
      List.nodup_nil⟩
    all_goals
      intro y member
      cases member
  refine ⟨⟨[], [], listed, rfl, ?_, ?_⟩, ?_⟩
  all_goals
    intro y member
    cases member

theorem Sound.step {c : SlabCache} (sound : c.Sound) {op : Op} (allowed : c.Allowed op) :
    ∃ c', SlabCache.step op c = some c' ∧ c'.Sound := by
  cases op with
  | alloc answer =>
      obtain ⟨result, c', done, sound', -⟩ := sound.alloc answer
      exact ⟨c', by rw [SlabCache.step, done]; rfl, sound'⟩
  | free p =>
      obtain ⟨c', done, sound', -⟩ := sound.free allowed
      exact ⟨c', done, sound'⟩

/-- **The invariant of a slab cache.**  Every run of a cache whose slabs have room for a
buffer, with any answers of the page allocator, passes all assertions and ends in a state
in which the list is linked in both directions, the slabs with free buffers stand before
the full ones, `curr` is the last of them and null exactly if there is no free buffer,
and every buffer is once either on the chain of its slab or live; `alloc` hands out a
buffer that is not live, and a slab is given back exactly with its last live buffer. -/
theorem slab_invariant (self s a : Nat) (slab : Nat → Slab) (fits : 0 < (create self s a slab).bps) (ops : List Op)
    (legal : Legal step Allowed (create self s a slab) ops) :
    ∃ c, runs step (create self s a slab) ops = some c ∧ (∃ P F, c.Shape P F) ∧ c.Busy ∧
      (c.curr = none ↔ ∀ x ∈ c.pages, (c.slab x).free = []) ∧
      (∀ answer, ∃ result c', c.alloc answer = some (result, c') ∧ Allocated c answer result c') ∧
      ∀ p ∈ c.live, ∃ c', c.free p = some c' ∧ Freed c p c' := by
  obtain ⟨c, done, sound⟩ := Legal.safe (fun _ _ sound allowed => sound.step allowed) ops _
    (sound_create self s a slab fits) legal
  obtain ⟨⟨P, F, shape⟩, busy⟩ := sound
  refine ⟨c, done, ⟨P, F, shape⟩, busy, shape.curr_none_iff, fun answer => ?_, fun p live => ?_⟩
  · obtain ⟨result, c', allocated, -, promise⟩ := Sound.alloc ⟨⟨P, F, shape⟩, busy⟩ answer
    exact ⟨result, c', allocated, promise⟩
  · obtain ⟨c', freed, -, promise⟩ := Sound.free ⟨⟨P, F, shape⟩, busy⟩ live
    exact ⟨c', freed, promise⟩

/-- A cache with one buffer per slab: two slabs are used, and the first one is given back. -/
theorem slab_invariant_one_buffer :
    ∃ c, runs step (create 0 4056 8 fun _ => ⟨0, none, none, [], 0⟩) [.alloc (some 4096), .alloc (some 8192), .free 4136] =
        some c ∧ c.live = [8232] ∧ c.returned = [4096] ∧ ∃ P F, c.Shape P F := by
  have outcome : (runs step (create 0 4056 8 fun _ => ⟨0, none, none, [], 0⟩)
      [.alloc (some 4096), .alloc (some 8192), .free 4136]).map (fun c => (c.live, c.returned)) = some ([8232], [4096]) := by
    decide
  have live : (runs step (create 0 4056 8 fun _ => ⟨0, none, none, [], 0⟩)
      [.alloc (some 4096), .alloc (some 8192)]).map (fun c => c.live) = some [8232, 4136] := by
    decide
  have legal : Legal step Allowed (create 0 4056 8 fun _ => ⟨0, none, none, [], 0⟩)
      [.alloc (some 4096), .alloc (some 8192), .free 4136] := by
    refine ⟨trivial, fun c₁ first => ⟨trivial, fun c₂ second => ⟨?_, fun _ _ => trivial⟩⟩⟩
    rw [runs, first, Option.bind_some, runs, second] at live
    have : c₂.live = [8232, 4136] := Option.some.inj live
    show 4136 ∈ c₂.live
    rw [this]
    decide
  obtain ⟨c, done, shape, -⟩ := slab_invariant 0 4056 8 (fun _ => ⟨0, none, none, [], 0⟩) (by decide) _ legal
  rw [done] at outcome
  obtain ⟨l, r⟩ := Prod.mk.inj (Option.some.inj outcome)
  exact ⟨c, done, l, r, shape⟩

end SlabCache

end Nova.Kernel
