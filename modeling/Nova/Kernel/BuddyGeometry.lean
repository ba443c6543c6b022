/-
# Nova.Kernel.BuddyGeometry — where the pages of the pool and their descriptors lie

`Buddy::init` divides the kernel memory from `KMEM_HVAS` to `KMEM_HVAE`: the pages from
the bottom up, the array of their `Block` descriptors at the top.  The two bases that it
computes lie below the pool, so that indices start at a superpage boundary; everything
is arithmetic on machine words.

* `Pool` has the words of `init` and the four conversions between addresses and indices.
* `toNat_init` says that these are the numbers of `layout`, the model of the allocator.
* `reached` are the descriptors that `coalesce` looks at.
* `pool_geometry`: pages and descriptors are apart and inside the kernel memory, the
  conversions are inverse to each other, no run leaves the pool, and the exclusive or of
  an index yields the other half of a larger block.
-/
import Mathlib.Order.CompletePartialOrder
import Nova.Kernel.Bits
import Nova.Kernel.Buddy

namespace Nova.Kernel

open Nova.Theory.Chunks
open Nova.Theory.Runs
open Nova.Theory.Words

set_option autoImplicit false

/-- The words of `Buddy` that `init` computes -/
structure Pool where
  memBase : Word
  minIdx : Word
  maxIdx : Word
  blkBase : Word

namespace Pool

/-- `page_to_index`, for the pool at `memBase` -/
def pageIndex (memBase x : Word) : Word := (x - memBase) / 4096#64

/-- `Buddy::init` up to its loop, on the memory from `virt` to `stop` -/
def init (virt stop : Word) : Pool :=
  let size := stop - virt
  let memBase := alignDn virt (1#64 <<< 21)
  let maxIdx := pageIndex memBase (virt + size / (4096#64 + 24#64) * 4096#64)
  { memBase, minIdx := pageIndex memBase virt, maxIdx, blkBase := virt + size - maxIdx * 24#64 }

def isValid (p : Pool) (x : Word) : Bool := p.minIdx ≤ x && x < p.maxIdx

/-- `index_to_block`: the address of the descriptor -/
def indexToBlock (p : Pool) (x : Word) : Word := p.blkBase + x * 24#64

/-- `block_to_index`: a difference of two pointers -/
def blockToIndex (p : Pool) (b : Word) : Word := (b - p.blkBase).sdiv 24#64

def indexToPage (p : Pool) (x : Word) : Word := p.memBase + x * 4096#64

def pageToIndex (p : Pool) (x : Word) : Word := pageIndex p.memBase x

end Pool

/-! ## Operations leave the pool where it is -/

namespace Buddy

variable {cpus : Nat}

structure Stays (b b' : Buddy cpus) : Prop where
  memBase : b'.memBase = b.memBase
  minIdx : b'.minIdx = b.minIdx
  maxIdx : b'.maxIdx = b.maxIdx

theorem Stays.refl (b : Buddy cpus) : Stays b b := ⟨rfl, rfl, rfl⟩

theorem Stays.trans {b b' b'' : Buddy cpus} (first : Stays b b') (second : Stays b' b'') : Stays b b'' :=
  ⟨second.memBase.trans first.memBase, second.minIdx.trans first.minIdx, second.maxIdx.trans first.maxIdx⟩

theorem Frame.stays {b b' : Buddy cpus} (frame : Frame b b') : Stays b b' := ⟨frame.memBase, frame.minIdx, frame.maxIdx⟩

theorem Stays.isValid {b b' : Buddy cpus} (stays : Stays b b') (x : Nat) : b'.isValid x = b.isValid x := by
  unfold Buddy.isValid
  rw [stays.minIdx, stays.maxIdx]

theorem frame_setBlk (b : Buddy cpus) (x : Nat) (f : Block → Block) : Frame b (b.setBlk x f) := ⟨rfl, rfl, rfl, rfl, rfl⟩

theorem frame_enqueue {b b' : Buddy cpus} {x : Nat} (done : b.enqueue x = some b') : Frame b b' := by
  unfold enqueue at done
  split at done
  · cases done
  · obtain rfl := Option.some.inj done
    exact ⟨rfl, rfl, rfl, rfl, rfl⟩

theorem frame_unlink {b b' : Buddy cpus} {o x : Nat} (done : b.unlink o x = some b') : Frame b b' := by
  unfold unlink at done
  split at done
  · obtain rfl := Option.some.inj done
    exact ⟨rfl, rfl, rfl, rfl, rfl⟩
  · cases done

theorem frame_split {ord block : Nat} : ∀ (d : Nat) {b b' : Buddy cpus}, split ord block d b = some b' → Frame b b'
  | 0, b, b', done => by
      obtain rfl := Option.some.inj done
      exact Frame.refl b
  | d + 1, b, b', done => by
      rw [split] at done
      split at done
      · obtain ⟨b₁, put, rest⟩ := Option.bind_eq_some_iff.mp done
        exact (frame_enqueue put).trans (frame_split d rest)
      · cases done

theorem frame_merge : ∀ (n o block : Nat) {b : Buddy cpus} {r : Nat × Buddy cpus},
    merge n o block b = some r → Frame b r.2
  | 0, o, block, b, r, done => by
      obtain rfl := Option.some.inj done
      exact Frame.refl b
  | n + 1, o, block, b, r, done => by
      rw [merge] at done
      dsimp only at done
      split at done
      · obtain rfl := Option.some.inj done
        exact Frame.refl b
      · split at done
        · obtain rfl := Option.some.inj done
          exact Frame.refl b
        · obtain ⟨b₁, taken, rest⟩ := Option.bind_eq_some_iff.mp done
          exact ((frame_unlink taken).trans (frame_setBlk b₁ _ _)).trans (frame_merge n (o + 1) _ rest)

theorem frame_coalesce {b b' : Buddy cpus} {block : Nat} (done : coalesce block b = some b') : Frame b b' := by
  unfold coalesce at done
  split at done
  · obtain ⟨r, merged, put⟩ := Option.bind_eq_some_iff.mp done
    exact ((frame_setBlk b _ _).trans (frame_merge _ _ _ merged)).trans (frame_enqueue put)
  · cases done

theorem stays_allocFrom {ord : Nat} : ∀ (n d : Nat) {b : Buddy cpus} {r : Option Nat × Buddy cpus},
    allocFrom ord n d b = some r → Stays b r.2
  | 0, d, b, r, done => by
      obtain rfl := Option.some.inj done
      exact Stays.refl b
  | n + 1, d, b, r, done => by
      rw [allocFrom] at done
      split at done
      · exact stays_allocFrom n (d + 1) done
      · obtain ⟨b₁, taken, rest⟩ := Option.bind_eq_some_iff.mp done
        obtain ⟨b₂, halved, rfl⟩ := Option.map_eq_some_iff.mp rest
        exact (frame_unlink taken).stays.trans ((frame_split d halved).stays.trans ⟨rfl, rfl, rfl⟩)

theorem stays_free {b b' : Buddy cpus} {ptr : Nat} (done : free ptr b = some b') : Stays b b' := by
  unfold free at done
  dsimp only at done
  split at done
  · obtain ⟨base, min, max⟩ := (frame_coalesce done).stays
    exact ⟨base, min, max⟩
  · cases done

theorem stays_waitDequeue {cpu : Fin cpus} {x : Nat} {rest : List Nat} {b b' : Buddy cpus}
    (done : b.waitDequeue cpu x rest = some b') : Stays b b' ∧ b'.waitlist cpu = rest := by
  unfold waitDequeue at done
  split at done
  · obtain rfl := Option.some.inj done
    exact ⟨⟨rfl, rfl, rfl⟩, Function.update_self ..⟩
  · cases done

theorem stays_freeWaitLoop {cpu : Fin cpus} : ∀ (n : Nat) {b b' : Buddy cpus}, freeWaitLoop cpu n b = some b' → Stays b b'
  | 0, b, b', done => by
      obtain rfl := Option.some.inj done
      exact Stays.refl b
  | n + 1, b, b', done => by
      rw [freeWaitLoop] at done
      split at done
      · obtain rfl := Option.some.inj done
        exact Stays.refl b
      · obtain ⟨b₁, taken, rest⟩ := Option.bind_eq_some_iff.mp done
        obtain ⟨b₂, out, merged⟩ := Option.bind_eq_some_iff.mp taken
        exact ((stays_waitDequeue out).1.trans (frame_coalesce merged).stays).trans (stays_freeWaitLoop n rest)

theorem stays_initLoop : ∀ (n i : Nat) {b b' : Buddy cpus}, initLoop n i b = some b' → Stays b b'
  | 0, i, b, b', done => by
      obtain rfl := Option.some.inj done
      exact Stays.refl b
  | n + 1, i, b, b', done => by
      rw [initLoop] at done
      split at done
      · obtain ⟨b₁, freed, rest⟩ := Option.bind_eq_some_iff.mp done
        exact (stays_free freed).trans (stays_initLoop n _ rest)
      · obtain rfl := Option.some.inj done
        exact Stays.refl b

theorem stays_attempt {b b' : Buddy cpus} {op : Op cpus} (done : attempt op b = some b') : Stays b b' := by
  cases op with
  | alloc ord =>
      obtain ⟨r, answer, rfl⟩ := Option.map_eq_some_iff.mp done
      exact stays_allocFrom _ _ answer
  | free ptr => exact stays_free done
  | wait cpu ptr =>
      change wait cpu ptr b = some b' at done
      unfold wait at done
      dsimp only at done
      split at done
      · cases done
      · split at done
        · cases done
        · obtain rfl := Option.some.inj done
          exact ⟨rfl, rfl, rfl⟩
  | freeWait cpu => exact stays_freeWaitLoop _ done

/-! ## The descriptors that an operation looks at -/

/-- The indices that become descriptors in the loop of `coalesce` (`merge`) -/
def mergeReached : Nat → Nat → Nat → Buddy cpus → List Nat
  | 0, _, block, _ => [block]
  | n + 1, o, block, b =>
      let buddy := block ^^^ 2 ^ o
      if !b.isValid buddy then [block]
      else if (b.blk buddy).tag ≠ .free ∨ (b.blk buddy).ord ≠ o then [block, buddy]
      else
        match b.dequeue buddy with
        | none => [block, buddy]
        | some b =>
            let next := if buddy < block then buddy else block
            block :: buddy :: mergeReached n (o + 1) next (b.setBlk next fun k => { k with ord := o + 1 })

/-- … in `coalesce` -/
def coalesceReached (block : Nat) (b : Buddy cpus) : List Nat :=
  let b := b.setBlk block fun k => { k with tag := .free }
  mergeReached (orders - 1 - (b.blk block).ord) (b.blk block).ord block b

/-- … in `free_wait` -/
def freeWaitReached (cpu : Fin cpus) : Nat → Buddy cpus → List Nat
  | 0, _ => []
  | n + 1, b =>
      match b.waitlist cpu with
      | [] => []
      | x :: rest =>
          match b.waitDequeue cpu x rest with
          | none => [x]
          | some b => coalesceReached x b ++ ((coalesce x b).map (freeWaitReached cpu n)).getD []

/-- The indices that an operation computes from a pointer or reaches by `coalesce`.  For `alloc` it is the index of
the pointer that it hands out. -/
def reached : Op cpus → Buddy cpus → List Nat
  | .alloc ord, b => ((b.alloc ord).bind fun r => r.1.map b.pageToIndex).toList
  | .free ptr, b => b.pageToIndex ptr :: coalesceReached (b.pageToIndex ptr) b
  | .wait _ ptr, b => [b.pageToIndex ptr]
  | .freeWait cpu, b => freeWaitReached cpu (b.waitlist cpu).length b

theorem mergeReached_valid : ∀ (n o : Nat) {block : Nat} {b : Buddy cpus}, b.isValid block →
    ∀ x ∈ mergeReached n o block b, b.isValid x
  | 0, o, block, b, valid, x, inside => by
      obtain rfl := List.mem_singleton.mp inside
      exact valid
  | n + 1, o, block, b, valid, x, inside => by
      rw [mergeReached] at inside
      dsimp only at inside
      split at inside
      · obtain rfl := List.mem_singleton.mp inside
        exact valid
      · rename_i ok
        have buddy : b.isValid (block ^^^ 2 ^ o) := by simpa using ok
        have two : ∀ y, y = block ∨ y = block ^^^ 2 ^ o → b.isValid y := by
          rintro y (rfl | rfl)
          · exact valid
          · exact buddy
        split at inside
        · exact two x (by simpa using inside)
        · split at inside
          · exact two x (by simpa using inside)
          · rename_i b₁ taken
            rcases List.mem_cons.mp inside with rfl | inside
            · exact valid
            rcases List.mem_cons.mp inside with rfl | inside
            · exact buddy
            -- the block that remains is one of the two
            have stays := (frame_unlink taken).stays
            have later := mergeReached_valid n (o + 1) (b := b₁.setBlk _ _) (by
              change b₁.isValid _ = true
              rw [stays.isValid]
              split
              · exact buddy
              · exact valid) x inside
            change b₁.isValid x = true at later
            rwa [stays.isValid] at later

theorem coalesceReached_valid {block : Nat} {b : Buddy cpus} (valid : b.isValid block) :
    ∀ x ∈ coalesceReached block b, b.isValid x :=
  mergeReached_valid (b := b.setBlk block _) _ _ valid

theorem freeWaitReached_valid {cpu : Fin cpus} : ∀ (n : Nat) {b : Buddy cpus}, (∀ x ∈ b.waitlist cpu, b.isValid x) →
    ∀ x ∈ freeWaitReached cpu n b, b.isValid x
  | 0, b, valid, x, inside => by cases inside
  | n + 1, b, valid, x, inside => by
      rw [freeWaitReached] at inside
      split at inside
      · cases inside
      · rename_i y rest list
        have first : b.isValid y := valid y (by rw [list]; exact List.mem_cons_self)
        split at inside
        · obtain rfl := List.mem_singleton.mp inside
          exact first
        · rename_i b₁ out
          obtain ⟨stays, left⟩ := stays_waitDequeue out
          rcases List.mem_append.mp inside with now | later
          · have := coalesceReached_valid (b := b₁) (by rw [stays.isValid]; exact first) x now
            rwa [stays.isValid] at this
          · cases merged : coalesce y b₁ with
            | none =>
                rw [merged] at later
                cases later
            | some b₂ =>
                rw [merged] at later
                have frame := frame_coalesce merged
                have both := stays.trans frame.stays
                have := freeWaitReached_valid n (b := b₂) (fun z member => by
                  rw [frame.waitlist, left] at member
                  rw [both.isValid]
                  exact valid z (by rw [list]; exact List.mem_cons_of_mem _ member)) x later
                rwa [both.isValid] at this

/-- **No operation leaves the pool.** -/
theorem Sound.reached_valid {b : Buddy cpus} {first : Nat} (sound : b.Sound first none) (base : 2 ^ 21 ∣ b.memBase)
    {op : Op cpus} (allowed : b.Allowed op) : ∀ x ∈ reached op b, b.isValid x := by
  intro x inside
  cases op with
  | alloc ord =>
      obtain ⟨r, answer, -, some⟩ := sound.serves base ord
      change x ∈ ((b.alloc ord).bind _).toList at inside
      rw [answer, Option.bind_some, Option.mem_toList] at inside
      obtain ⟨ptr, given, rfl⟩ := Option.map_eq_some_iff.mp inside
      obtain ⟨y, rfl, -, -, -, low, high, -⟩ := some ptr given
      have index : b.pageToIndex (b.indexToPage y) = y := by
        rw [pageToIndex, indexToPage, Nat.add_sub_cancel_left, Nat.mul_div_cancel y (by decide)]
      have := Nat.two_pow_pos ord
      have := sound.low
      rw [index, Buddy.isValid, Bool.and_eq_true, decide_eq_true_eq, decide_eq_true_eq]
      omega
  | free ptr =>
      obtain ⟨c, live, rfl⟩ := allowed
      obtain ⟨index, valid, -⟩ := sound.live_index live
      change x ∈ b.pageToIndex _ :: coalesceReached (b.pageToIndex _) b at inside
      rw [index] at inside
      rcases List.mem_cons.mp inside with rfl | inside
      · exact valid
      · exact coalesceReached_valid valid x inside
  | wait cpu ptr =>
      obtain ⟨c, live, rfl⟩ := allowed
      obtain ⟨index, valid, -⟩ := sound.live_index live
      change x ∈ [b.pageToIndex _] at inside
      rw [index] at inside
      obtain rfl := List.mem_singleton.mp inside
      exact valid
  | freeWait cpu =>
      refine freeWaitReached_valid _ (fun y member => ?_) x inside
      have block := sound.partitioned.block (.wait cpu y) member
      have := Nat.two_pow_pos ((b.blk y).ord)
      have := sound.low
      rw [Buddy.isValid, Bool.and_eq_true, decide_eq_true_eq, decide_eq_true_eq]
      obtain ⟨-, low, high, -⟩ := block
      change first ≤ y at low
      change y + 2 ^ (b.blk y).ord ≤ b.maxIdx at high
      omega

end Buddy

/-! ## The words of the pool -/

namespace Pool

/-- The pages of the pool, as a set of addresses -/
def pages (p : Pool) : Set Nat :=
  { a | ∃ x, p.isValid x ∧ (p.indexToPage x).toNat ≤ a ∧ a < (p.indexToPage x).toNat + pageBytes }

/-- The `Block` array -/
def blocks (p : Pool) : Set Nat :=
  { a | ∃ x, p.isValid x ∧ (p.indexToBlock x).toNat ≤ a ∧ a < (p.indexToBlock x).toNat + blockBytes }

/-- Pages and descriptors lie in the memory from `virt` to `stop`, apart, and the conversions are inverse to each
other. -/
structure Laid (p : Pool) (virt stop : Word) : Prop where
  apart : Disjoint p.pages p.blocks
  pagesInside : p.pages ⊆ Set.Ico virt.toNat stop.toNat
  blocksInside : p.blocks ⊆ Set.Ico virt.toNat stop.toNat
  index_of_page : ∀ x, p.isValid x → p.pageToIndex (p.indexToPage x) = x
  page_of_index : ∀ a : Word, a.toNat ∈ p.pages → a.toNat % pageBytes = 0 →
    p.isValid (p.pageToIndex a) ∧ p.indexToPage (p.pageToIndex a) = a
  index_of_block : ∀ x, p.isValid x → p.blockToIndex (p.indexToBlock x) = x
  block_of_index : ∀ a : Word, a.toNat ∈ p.blocks → (stop.toNat - a.toNat) % blockBytes = 0 →
    p.isValid (p.blockToIndex a) ∧ p.indexToBlock (p.blockToIndex a) = a

variable {virt stop : Word}

theorem toNat_memBase : (init virt stop).memBase.toNat = virt.toNat / 2 ^ 21 * 2 ^ 21 :=
  toNat_and_not_lowMask virt (by decide)

theorem toNat_pageIndex {base x : Word} (le : base ≤ x) : (pageIndex base x).toNat = (x.toNat - base.toNat) / pageBytes := by
  rw [pageIndex, BitVec.toNat_udiv, BitVec.toNat_sub_of_le le]
  rfl

theorem isValid_iff {p : Pool} {x : Word} : p.isValid x = true ↔ p.minIdx.toNat ≤ x.toNat ∧ x.toNat < p.maxIdx.toNat := by
  rw [isValid, Bool.and_eq_true, decide_eq_true_eq, decide_eq_true_eq, BitVec.le_def, BitVec.lt_def]

section Init

variable (le : virt ≤ stop)
include le

/-- The pool has `size / (PAGE_SIZE + sizeof (Block))` pages. -/
theorem toNat_idx : (init virt stop).minIdx.toNat = (virt.toNat - virt.toNat / 2 ^ 21 * 2 ^ 21) / pageBytes ∧
    (init virt stop).maxIdx.toNat = (init virt stop).minIdx.toNat + (stop.toNat - virt.toNat) / (pageBytes + blockBytes) := by
  have base := @toNat_memBase virt stop
  have below : (init virt stop).memBase ≤ virt := by
    rw [BitVec.le_def, base]
    exact Nat.div_mul_le_self _ _
  have size : (stop - virt).toNat = stop.toNat - virt.toNat := BitVec.toNat_sub_of_le le
  have := stop.isLt
  have := BitVec.le_def.mp le
  have min : (init virt stop).minIdx.toNat = (virt.toNat - virt.toNat / 2 ^ 21 * 2 ^ 21) / pageBytes := by
    rw [← base]
    exact toNat_pageIndex below
  have last : (virt + (stop - virt) / (4096#64 + 24#64) * 4096#64).toNat =
      virt.toNat + (stop.toNat - virt.toNat) / (pageBytes + blockBytes) * pageBytes := by
    rw [BitVec.toNat_add, BitVec.toNat_mul, BitVec.toNat_udiv, size]
    change (virt.toNat + (stop.toNat - virt.toNat) / 4120 * 4096 % 2 ^ 64) % 2 ^ 64 =
      virt.toNat + (stop.toNat - virt.toNat) / 4120 * 4096
    omega
  refine ⟨min, ?_⟩
  have max : (init virt stop).maxIdx.toNat =
      (virt.toNat + (stop.toNat - virt.toNat) / (pageBytes + blockBytes) * pageBytes - virt.toNat / 2 ^ 21 * 2 ^ 21) /
        pageBytes := by
    rw [← base, ← last]
    refine toNat_pageIndex (BitVec.le_def.mpr ?_)
    rw [last]
    exact Nat.le_trans (BitVec.le_def.mp below) (Nat.le_add_right _ _)
  rw [max, min]
  change (_ + _ * 4096 - _) / 4096 = _ / 4096 + _
  have := Nat.div_mul_le_self virt.toNat (2 ^ 21)
  omega

theorem min_small : (init virt stop).minIdx.toNat < 512 := by
  rw [(toNat_idx le).1]
  change _ / 4096 < 512
  omega

theorem max_bound : (init virt stop).maxIdx.toNat < 2 ^ 53 := by
  rw [(toNat_idx le).2]
  have := min_small le
  have := stop.isLt
  change _ + _ / 4120 < _
  omega

theorem toNat_indexToBlock {x : Word} (low : (init virt stop).minIdx.toNat ≤ x.toNat)
    (high : x.toNat ≤ (init virt stop).maxIdx.toNat) :
    ((init virt stop).indexToBlock x).toNat + ((init virt stop).maxIdx.toNat - x.toNat) * blockBytes = stop.toNat := by
  have count := (toNat_idx le).2
  have bound := max_bound le
  have := stop.isLt
  have := BitVec.le_def.mp le
  have base : (init virt stop).blkBase = stop - (init virt stop).maxIdx * 24#64 := by
    change virt + (stop - virt) - (init virt stop).maxIdx * 24#64 = _
    rw [BitVec.add_comm virt, BitVec.sub_add_cancel]
  rw [indexToBlock, base, BitVec.toNat_add, BitVec.toNat_sub, BitVec.toNat_mul, BitVec.toNat_mul]
  change ((2 ^ 64 - (init virt stop).maxIdx.toNat * 24 % 2 ^ 64 + stop.toNat) % 2 ^ 64 + x.toNat * 24 % 2 ^ 64) % 2 ^ 64 +
    ((init virt stop).maxIdx.toNat - x.toNat) * 24 = stop.toNat
  change (init virt stop).maxIdx.toNat = _ + (stop.toNat - virt.toNat) / 4120 at count
  omega

variable (aligned : virt.toNat % pageBytes = 0)
include aligned

theorem toNat_indexToPage {x : Word} (low : (init virt stop).minIdx.toNat ≤ x.toNat)
    (high : x.toNat ≤ (init virt stop).maxIdx.toNat) :
    ((init virt stop).indexToPage x).toNat = virt.toNat + (x.toNat - (init virt stop).minIdx.toNat) * pageBytes := by
  obtain ⟨min, count⟩ := toNat_idx le
  have := stop.isLt
  have := BitVec.le_def.mp le
  have small := max_bound le
  rw [indexToPage, BitVec.toNat_add, BitVec.toNat_mul, toNat_memBase]
  change (virt.toNat / 2 ^ 21 * 2 ^ 21 + x.toNat * 4096 % 2 ^ 64) % 2 ^ 64 =
    virt.toNat + (x.toNat - (init virt stop).minIdx.toNat) * 4096
  change (init virt stop).minIdx.toNat = _ / 4096 at min
  change (init virt stop).maxIdx.toNat = _ + (stop.toNat - virt.toNat) / 4120 at count
  change virt.toNat % 4096 = 0 at aligned
  omega

/-- The pages end before the first descriptor. -/
theorem mem_pages {a : Nat} : a ∈ (init virt stop).pages ↔
    virt.toNat ≤ a ∧ a < virt.toNat + ((init virt stop).maxIdx.toNat - (init virt stop).minIdx.toNat) * pageBytes := by
  have max := max_bound le
  constructor
  · rintro ⟨x, valid, low, high⟩
    obtain ⟨min, max⟩ := isValid_iff.mp valid
    rw [toNat_indexToPage le aligned min (Nat.le_of_lt max)] at low high
    change _ + _ * 4096 ≤ a at low
    change a < _ + _ * 4096 + 4096 at high
    change _ ∧ a < _ + _ * 4096
    omega
  · rintro ⟨low, high⟩
    change a < _ + _ * 4096 at high
    have index : (init virt stop).minIdx.toNat + (a - virt.toNat) / 4096 < (init virt stop).maxIdx.toNat := by omega
    refine ⟨BitVec.ofNat 64 ((init virt stop).minIdx.toNat + (a - virt.toNat) / 4096), ?_⟩
    have value : (BitVec.ofNat 64 ((init virt stop).minIdx.toNat + (a - virt.toNat) / 4096)).toNat =
        (init virt stop).minIdx.toNat + (a - virt.toNat) / 4096 := by
      rw [BitVec.toNat_ofNat]
      exact Nat.mod_eq_of_lt (by omega)
    rw [isValid_iff, toNat_indexToPage le aligned (by omega) (by omega), value]
    change _ ∧ _ + _ * 4096 ≤ a ∧ a < _ + _ * 4096 + 4096
    omega

omit aligned in
theorem mem_blocks {a : Nat} (inside : a ∈ (init virt stop).blocks) :
    a < stop.toNat ∧
      stop.toNat ≤ a + ((init virt stop).maxIdx.toNat - (init virt stop).minIdx.toNat) * blockBytes := by
  obtain ⟨x, valid, low, high⟩ := inside
  obtain ⟨min, max⟩ := isValid_iff.mp valid
  have place := toNat_indexToBlock le min (Nat.le_of_lt max)
  change _ + (_ - _) * 24 = _ at place
  change a < _ + 24 at high
  change _ ∧ _ ≤ a + (_ - _) * 24
  omega

omit aligned in
/-- Pages and descriptors of the pool fit into the memory together. -/
theorem room : virt.toNat + ((init virt stop).maxIdx.toNat - (init virt stop).minIdx.toNat) * (pageBytes + blockBytes) ≤
    stop.toNat := by
  obtain ⟨-, count⟩ := toNat_idx le
  have := BitVec.le_def.mp le
  change _ = _ + _ / 4120 at count
  change _ + (_ - _) * 4120 ≤ _
  omega

theorem index_of_page {x : Word} (valid : (init virt stop).isValid x) :
    (init virt stop).pageToIndex ((init virt stop).indexToPage x) = x := by
  obtain ⟨low, high⟩ := isValid_iff.mp valid
  apply BitVec.eq_of_toNat_eq
  have place := toNat_indexToPage le aligned low (Nat.le_of_lt high)
  obtain ⟨min, -⟩ := toNat_idx le
  have base := @toNat_memBase virt stop
  change _ = _ + _ * 4096 at place
  change _ = _ / 4096 at min
  have above : (init virt stop).memBase ≤ (init virt stop).indexToPage x := by
    rw [BitVec.le_def, base, place]
    omega
  change virt.toNat % 4096 = 0 at aligned
  rw [pageToIndex, toNat_pageIndex above, base, place]
  change _ / 4096 = _
  omega

theorem page_of_index {a : Word} (inside : a.toNat ∈ (init virt stop).pages) (page : a.toNat % pageBytes = 0) :
    (init virt stop).isValid ((init virt stop).pageToIndex a) ∧
      (init virt stop).indexToPage ((init virt stop).pageToIndex a) = a := by
  obtain ⟨x, valid, low, high⟩ := inside
  obtain ⟨min, max⟩ := isValid_iff.mp valid
  have place := toNat_indexToPage le aligned min (Nat.le_of_lt max)
  have same : a = (init virt stop).indexToPage x := by
    apply BitVec.eq_of_toNat_eq
    change _ = _ + _ * 4096 at place
    change a.toNat < _ + 4096 at high
    change _ % 4096 = 0 at page
    change _ % 4096 = 0 at aligned
    omega
  rw [same, index_of_page le aligned valid]
  exact ⟨valid, rfl⟩

omit aligned in
theorem index_of_block {x : Word} (valid : (init virt stop).isValid x) :
    (init virt stop).blockToIndex ((init virt stop).indexToBlock x) = x := by
  obtain ⟨-, high⟩ := isValid_iff.mp valid
  have bound := max_bound le
  have distance : (init virt stop).indexToBlock x - (init virt stop).blkBase = x * 24#64 := by
    rw [indexToBlock, BitVec.add_comm, BitVec.add_sub_cancel]
  have value : (x * 24#64).toNat = x.toNat * 24 := by
    rw [BitVec.toNat_mul]
    exact Nat.mod_eq_of_lt (by change x.toNat * 24 < _; omega)
  have sign : (x * 24#64).msb = false := by
    rw [BitVec.msb_eq_false_iff_two_mul_lt, value]
    omega
  rw [blockToIndex, distance, BitVec.sdiv_eq, sign]
  apply BitVec.eq_of_toNat_eq
  change ((x * 24#64) / 24#64).toNat = _
  rw [BitVec.toNat_udiv, value]
  exact Nat.mul_div_cancel _ (by decide)

omit aligned in
theorem block_of_index {a : Word} (inside : a.toNat ∈ (init virt stop).blocks) (block : (stop.toNat - a.toNat) % blockBytes = 0) :
    (init virt stop).isValid ((init virt stop).blockToIndex a) ∧
      (init virt stop).indexToBlock ((init virt stop).blockToIndex a) = a := by
  have below := (mem_blocks le inside).1
  obtain ⟨x, valid, low, high⟩ := inside
  obtain ⟨min, max⟩ := isValid_iff.mp valid
  have place := toNat_indexToBlock le min (Nat.le_of_lt max)
  have same : a = (init virt stop).indexToBlock x := by
    apply BitVec.eq_of_toNat_eq
    simp only [blockBytes] at *
    omega
  rw [same, index_of_block le valid]
  exact ⟨valid, rfl⟩

theorem laid : (init virt stop).Laid virt stop where
  apart := by
    rw [Set.disjoint_left]
    intro a page block
    have := (mem_pages le aligned).mp page
    have := mem_blocks le block
    have := room le
    change _ + _ * 4120 ≤ _ at this
    simp only [pageBytes, blockBytes] at *
    omega
  pagesInside := by
    intro a page
    have := (mem_pages le aligned).mp page
    have := room le
    simp only [pageBytes, blockBytes, Set.mem_Ico] at *
    omega
  blocksInside := by
    intro a block
    have := mem_blocks le block
    have := room le
    simp only [pageBytes, blockBytes, Set.mem_Ico] at *
    omega
  index_of_page := fun _ valid => index_of_page le aligned valid
  page_of_index := fun _ inside page => page_of_index le aligned inside page
  index_of_block := fun _ valid => index_of_block le valid
  block_of_index := fun _ inside block => block_of_index le inside block

end Init

end Pool

/-! ## The geometry of the pool -/

namespace Buddy

variable {cpus : Nat}

/-- The allocator works with the words of `init`. -/
structure On (b : Buddy cpus) (p : Pool) : Prop where
  memBase : b.memBase = p.memBase.toNat
  minIdx : b.minIdx = p.minIdx.toNat
  maxIdx : b.maxIdx = p.maxIdx.toNat

theorem on_layout {kmemS kmemF kmemE : Word} (le : kmemS ≤ kmemE) :
    (layout kmemS.toNat kmemF.toNat kmemE.toNat : Buddy cpus).On (Pool.init kmemS kmemE) := by
  obtain ⟨min, max⟩ := Pool.toNat_idx le
  refine ⟨Pool.toNat_memBase.symm, min.symm, ?_⟩
  rw [max, min]
  have := Nat.div_mul_le_self kmemS.toNat (2 ^ 21)
  change (_ + _ * 4096 - _) / 4096 = _ / 4096 + _
  omega

theorem On.stays {b b' : Buddy cpus} {p : Pool} (on : b.On p) (stays : Stays b b') : b'.On p :=
  ⟨stays.memBase.trans on.memBase, stays.minIdx.trans on.minIdx, stays.maxIdx.trans on.maxIdx⟩

/-- The block that `coalesce` looks at next to the block `c` is the other half of a block of the next order, at every
offset of the mapping of kernel memory. -/
structure Paired (b : Buddy cpus) (c : Chunk) : Prop where
  word : ∀ x : Word, x.toNat = c.base → (x ^^^ 1#64 <<< c.order).toNat = c.base ^^^ 2 ^ c.order
  aligned : 2 ^ c.order * pageBytes ∣ b.indexToPage (c.base ^^^ 2 ^ c.order)
  adjacent : b.indexToPage (c.base ^^^ 2 ^ c.order) = b.indexToPage c.base + 2 ^ c.order * pageBytes ∨
    b.indexToPage c.base = b.indexToPage (c.base ^^^ 2 ^ c.order) + 2 ^ c.order * pageBytes
  next : 2 ^ (c.order + 1) * pageBytes ∣ b.indexToPage (min c.base (c.base ^^^ 2 ^ c.order))
  halves : ∀ p, (⟨min c.base (c.base ^^^ 2 ^ c.order), c.order + 1⟩ : Chunk).Covers p ↔
    c.Covers p ∨ (⟨c.base ^^^ 2 ^ c.order, c.order⟩ : Chunk).Covers p

theorem dvd_indexToPage {b : Buddy cpus} (base : 2 ^ 21 ∣ b.memBase) {o x : Nat} (small : o < orders) (aligned : 2 ^ o ∣ x) :
    2 ^ o * pageBytes ∣ b.indexToPage x := by
  have unit : 2 ^ o * pageBytes ∣ 2 ^ 21 := by
    have pages : pageBytes = 2 ^ 12 := rfl
    rw [pages, ← Nat.pow_add]
    change o < 10 at small
    exact Nat.pow_dvd_pow 2 (by omega)
  exact Nat.dvd_add (dvd_trans unit base) (Nat.mul_dvd_mul aligned (dvd_refl _))

theorem paired {b : Buddy cpus} (base : 2 ^ 21 ∣ b.memBase) {c : Chunk} (aligned : c.Aligned) (small : c.order + 1 < orders) :
    b.Paired c := by
  have below : c.order < orders := Nat.lt_of_succ_lt small
  obtain ⟨x, even, halves⟩ := Chunk.buddy_cases aligned
  have pos := Nat.two_pow_pos c.order
  -- the lower half begins where the larger block does
  have pair : (c.base = x ∧ c.base ^^^ 2 ^ c.order = x + 2 ^ c.order) ∨
      (c.base = x + 2 ^ c.order ∧ c.base ^^^ 2 ^ c.order = x) := by
    rcases halves with ⟨mine, other⟩ | ⟨mine, other⟩
    · exact Or.inl ⟨congrArg Chunk.base mine, congrArg Chunk.base other⟩
    · exact Or.inr ⟨congrArg Chunk.base mine, congrArg Chunk.base other⟩
  have lower : min c.base (c.base ^^^ 2 ^ c.order) = x := by omega
  have step : b.indexToPage (x + 2 ^ c.order) = b.indexToPage x + 2 ^ c.order * pageBytes := by
    rw [indexToPage, indexToPage, Nat.add_mul, Nat.add_assoc]
  refine ⟨fun y value => ?_, dvd_indexToPage base below (Chunk.buddy_aligned aligned), ?_, ?_, fun p => ?_⟩
  · have width : c.order < 64 := Nat.lt_trans below (by decide)
    rw [BitVec.toNat_xor, value, BitVec.toNat_shiftLeft]
    change c.base ^^^ 1 <<< c.order % 2 ^ 64 = _
    rw [Nat.one_shiftLeft, Nat.mod_eq_of_lt (Nat.pow_lt_pow_right (by decide) width)]
  · rcases pair with ⟨mine, other⟩ | ⟨mine, other⟩
    · rw [other, mine, step]
      exact Or.inl rfl
    · rw [other, mine, step]
      exact Or.inr rfl
  · rw [lower]
    exact dvd_indexToPage base small even
  · rw [lower, Chunk.covers_halves]
    change _ ↔ c.Covers p ∨ c.buddy.Covers p
    rcases halves with ⟨mine, other⟩ | ⟨mine, other⟩
    · rw [other, ← mine]
    · rw [other, ← mine]
      exact Or.comm

/-- **The geometry of the pool**: its pages and their descriptors share the kernel memory, and no run leaves it. -/
theorem pool_geometry {cpus : Nat} (kmemS kmemF kmemE : Word) (low : kmemS ≤ kmemF) (high : kmemF ≤ kmemE)
    (alignedS : kmemS.toNat % pageBytes = 0) (alignedF : kmemF.toNat % pageBytes = 0) :
    (Pool.init kmemS kmemE).Laid kmemS kmemE ∧
      ∃ b₀ : Buddy cpus, init kmemS.toNat kmemF.toNat kmemE.toNat = some b₀ ∧
        ∀ ops, Legal attempt Allowed b₀ ops → ∃ b, runs attempt b₀ ops = some b ∧ b.On (Pool.init kmemS kmemE) ∧
          (∀ op, b.Allowed op → ∀ x ∈ reached op b, b.isValid x) ∧
          ∀ h : Home cpus, h.On b → (h.chunk b).order + 1 < orders → b.Paired (h.chunk b) := by
  have le : kmemS ≤ kmemE := BitVec.le_trans low high
  refine ⟨Pool.laid le alignedS, ?_⟩
  obtain ⟨b₀, made, sound, -, -, base⟩ := @init_spec cpus kmemS.toNat kmemF.toNat kmemE.toNat low alignedF
  refine ⟨b₀, made, fun ops legal => ?_⟩
  have placed : b₀.On (Pool.init kmemS kmemE) := (on_layout le).stays (stays_initLoop _ _ made)
  obtain ⟨b, done, running, stays⟩ := Legal.safe (I := fun b => Running _ b₀.memBase b₀.maxIdx b ∧ Stays b₀ b)
    (fun b op inv allowed => by
      obtain ⟨b', step, running⟩ := Running.attempt b op inv.1 allowed
      exact ⟨b', step, running, inv.2.trans (stays_attempt step)⟩) ops b₀ ⟨⟨sound, rfl, rfl⟩, Stays.refl b₀⟩ legal
  have base' : 2 ^ 21 ∣ b.memBase := running.base ▸ base
  refine ⟨b, done, placed.stays stays, fun op allowed => running.sound.reached_valid base' allowed, ?_⟩
  intro h on small
  exact paired base' (running.sound.partitioned.block h on).1 small

/-- The kernel memory of an image whose data end at 2 MiB, with 6 pages in use and 10 MiB for the pool -/
theorem pool_geometry_image : (Pool.init 0xffffffff80203000#64 0xffffffff81000000#64).Laid 0xffffffff80203000#64 0xffffffff81000000#64 ∧
    (Pool.init 0xffffffff80203000#64 0xffffffff81000000#64).minIdx = 3#64 := by
  exact ⟨(@pool_geometry 1 0xffffffff80203000#64 0xffffffff80209000#64 0xffffffff81000000#64
    (by decide) (by decide) (by decide) (by decide)).1, by decide⟩

end Buddy

end Nova.Kernel
