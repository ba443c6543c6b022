/-
# Nova.Kernel.Buddy — the page allocator

`Buddy` of `src/buddy.cpp` and `inc/buddy.hpp`.  A page is known by its index; its
block descriptor has an order, a tag, and the bit `queued()` (whether its links are
set).  The lists are lists of indices, head first.  The lock makes `alloc` and
`coalesce` atomic.  An assertion that fails is `none`.

The model adds `live`, the blocks that `alloc` has handed out and that were not
passed to `free` or `wait`.

* `Sound` is the invariant: the free blocks, the live ones, those on the wait lists
  and the one in the hands of a running operation tile the pool.
* `Sound.alloc`, `Sound.coalesce`, `Sound.wait`: what the operations do to it.
* `pool_partitioned`: the partition invariant of every run.
* `free_determined`: the free blocks depend on the live and waiting blocks only.
-/
import Nova.Theory.Chunks
import Nova.Theory.Lists
import Nova.Theory.Runs

namespace Nova.Kernel

open Nova.Theory.Chunks
open Nova.Theory.Lists
open Nova.Theory.Runs

set_option autoImplicit false

/-- `Buddy::orders` -/
abbrev orders : Nat := 10

/-- `PAGE_SIZE` -/
abbrev pageBytes : Nat := 4096

/-- `sizeof (Block)` -/
abbrev blockBytes : Nat := 24

/-- `Buddy::Block::Tag` -/
inductive Tag where
  | used | free
  deriving DecidableEq

/-- `Buddy::Block` -/
structure Block where
  ord : Nat
  tag : Tag
  queued : Bool
  deriving DecidableEq

structure Buddy (cpus : Nat) where
  memBase : Nat
  minIdx : Nat
  maxIdx : Nat
  blk : Nat → Block
  freelist : Nat → List Nat
  waitlist : Fin cpus → List Nat
  live : List Chunk

namespace Buddy

variable {cpus : Nat}

/-- `is_valid` -/
def isValid (b : Buddy cpus) (x : Nat) : Bool := b.minIdx ≤ x && x < b.maxIdx

/-- `index_to_page` -/
def indexToPage (b : Buddy cpus) (x : Nat) : Nat := b.memBase + x * pageBytes

/-- `page_to_index` -/
def pageToIndex (b : Buddy cpus) (x : Nat) : Nat := (x - b.memBase) / pageBytes

def setBlk (b : Buddy cpus) (x : Nat) (f : Block → Block) : Buddy cpus :=
  { b with blk := Function.update b.blk x (f (b.blk x)) }

/-- `Freelist::enqueue`, with the assertion of `Queue::enqueue` -/
def enqueue (b : Buddy cpus) (x : Nat) : Option (Buddy cpus) :=
  if (b.blk x).queued then none
  else
    some { b.setBlk x fun k => { k with queued := true } with
      freelist := Function.update b.freelist (b.blk x).ord (x :: b.freelist (b.blk x).ord) }

/-- `Queue::dequeue` on the free list of order `o`, with its assertion -/
def unlink (b : Buddy cpus) (o x : Nat) : Option (Buddy cpus) :=
  if (b.blk x).queued then
    some { b.setBlk x fun k => { k with queued := false } with
      freelist := Function.update b.freelist o ((b.freelist o).erase x) }
  else none

/-- `Freelist::dequeue (b)` -/
def dequeue (b : Buddy cpus) (x : Nat) : Option (Buddy cpus) := b.unlink (b.blk x).ord x

/-- The inner loop of `alloc`: `d` halvings of `block`, down to order `ord`. -/
def split (ord block : Nat) : Nat → Buddy cpus → Option (Buddy cpus)
  | 0, b => some b
  | d + 1, b =>
      let buddy := block + 2 ^ (ord + d)
      if (b.blk buddy).ord = ord + d then (b.enqueue buddy).bind (split ord block d) else none

/-- The rest of `alloc` once `block` of order `ord + d` was taken from its list -/
def take (ord block d : Nat) (b : Buddy cpus) : Option (Option Nat × Buddy cpus) :=
  (split ord block d b).map fun b =>
    (some (b.indexToPage block),
      { b.setBlk block fun k => { k with ord, tag := .used } with live := ⟨block, ord⟩ :: b.live })

/-- The outer loop of `alloc` from order `ord + d` on; `n` orders are left. -/
def allocFrom (ord : Nat) : Nat → Nat → Buddy cpus → Option (Option Nat × Buddy cpus)
  | 0, _, b => some (none, b)
  | n + 1, d, b =>
      match b.freelist (ord + d) with
      | [] => allocFrom ord n (d + 1) b
      | block :: _ => (b.unlink (ord + d) block).bind (take ord block d)

/-- `Buddy::alloc`: the page address, `none` for `nullptr` -/
def alloc (ord : Nat) (b : Buddy cpus) : Option (Option Nat × Buddy cpus) :=
  allocFrom ord (orders - ord) 0 b

/-- The loop of `coalesce` at order `o`; `n` orders are left.  The block that comes out -/
def merge : Nat → Nat → Nat → Buddy cpus → Option (Nat × Buddy cpus)
  | 0, _, block, b => some (block, b)
  | n + 1, o, block, b =>
      let buddy := block ^^^ 2 ^ o
      if !b.isValid buddy then some (block, b)
      else if (b.blk buddy).tag ≠ .free ∨ (b.blk buddy).ord ≠ o then some (block, b)
      else
        (b.dequeue buddy).bind fun b =>
          let block := if buddy < block then buddy else block
          merge n (o + 1) block (b.setBlk block fun k => { k with ord := o + 1 })

/-- `Buddy::coalesce` -/
def coalesce (block : Nat) (b : Buddy cpus) : Option (Buddy cpus) :=
  if (b.blk block).tag = .used then
    let b := b.setBlk block fun k => { k with tag := .free }
    (merge (orders - 1 - (b.blk block).ord) (b.blk block).ord block b).bind fun r => r.2.enqueue r.1
  else none

/-- The blocks other than the one at `idx` -/
def liveBut (b : Buddy cpus) (idx : Nat) : List Chunk := b.live.filter fun c => c.base != idx

/-- `Buddy::free` -/
def free (ptr : Nat) (b : Buddy cpus) : Option (Buddy cpus) :=
  let idx := b.pageToIndex ptr
  if b.isValid idx then coalesce idx { b with live := b.liveBut idx } else none

/-- `Buddy::wait` -/
def wait (cpu : Fin cpus) (ptr : Nat) (b : Buddy cpus) : Option (Buddy cpus) :=
  let idx := b.pageToIndex ptr
  if !b.isValid idx then none
  else if (b.blk idx).queued then none
  else
    some { b.setBlk idx fun k => { k with queued := true } with
      waitlist := Function.update b.waitlist cpu (idx :: b.waitlist cpu)
      live := b.liveBut idx }

/-- The head of the wait list of a CPU -/
def waitDequeue (cpu : Fin cpus) (x : Nat) (rest : List Nat) (b : Buddy cpus) : Option (Buddy cpus) :=
  if (b.blk x).queued then
    some { b.setBlk x fun k => { k with queued := false } with
      waitlist := Function.update b.waitlist cpu rest }
  else none

/-- `Buddy::free_wait`, with at most `n` rounds -/
def freeWaitLoop (cpu : Fin cpus) : Nat → Buddy cpus → Option (Buddy cpus)
  | 0, b => some b
  | n + 1, b =>
      match b.waitlist cpu with
      | [] => some b
      | x :: rest => ((b.waitDequeue cpu x rest).bind (coalesce x)).bind (freeWaitLoop cpu n)

/-- `Buddy::free_wait` on a CPU -/
def freeWait (cpu : Fin cpus) (b : Buddy cpus) : Option (Buddy cpus) :=
  freeWaitLoop cpu (b.waitlist cpu).length b

/-- The loop of `init` from the address `i` on, with at most `n` rounds -/
def initLoop : Nat → Nat → Buddy cpus → Option (Buddy cpus)
  | 0, _, b => some b
  | n + 1, i, b =>
      if i < b.indexToPage b.maxIdx then (free i b).bind (initLoop n (i + pageBytes)) else some b

/-- The state in which `init` starts its loop.  The pool is in zeroed memory from
`KMEM_HVAS` to `KMEM_HVAE`; the pages below `KMEM_HVAF` are in use for good, the
others count as handed out until the loop has freed them. -/
def layout (kmemS kmemF kmemE : Nat) : Buddy cpus :=
  let memBase := kmemS / 2 ^ 21 * 2 ^ 21
  let maxIdx := (kmemS + (kmemE - kmemS) / (pageBytes + blockBytes) * pageBytes - memBase) / pageBytes
  let first := (kmemF - memBase) / pageBytes
  { memBase
    minIdx := (kmemS - memBase) / pageBytes
    maxIdx
    blk := fun _ => ⟨0, .used, false⟩
    freelist := fun _ => []
    waitlist := fun _ => []
    live := (List.range' first (maxIdx - first)).map fun x => ⟨x, 0⟩ }

/-- `Buddy::init` -/
def init (kmemS kmemF kmemE : Nat) : Option (Buddy cpus) :=
  initLoop (layout kmemS kmemF kmemE : Buddy cpus).maxIdx kmemF (layout kmemS kmemF kmemE)

/-! ## The invariant -/

/-- The blocks on the wait lists -/
def waiting (b : Buddy cpus) : List Nat := (List.finRange cpus).flatMap b.waitlist

/-- The live and the waiting blocks -/
def used (b : Buddy cpus) : List Nat := b.live.map Chunk.base ++ b.waiting

/-- The free blocks, with their orders -/
def freeChunks (b : Buddy cpus) : Set Chunk := fun c => c.base ∈ b.freelist c.order

/-- The live and the waiting blocks, with their orders -/
def usedChunks (b : Buddy cpus) : Set Chunk := fun c => c.base ∈ b.used ∧ (b.blk c.base).ord = c.order

/-- All blocks, that in the hands of a running operation included -/
def chunks (b : Buddy cpus) (hand : Option Chunk) : Set Chunk :=
  fun c => c ∈ b.freeChunks ∪ b.usedChunks ∨ hand = some c

theorem mem_chunks {b : Buddy cpus} {hand : Option Chunk} {c : Chunk} :
    c ∈ b.chunks hand ↔
      (c.base ∈ b.freelist c.order ∨ (c.base ∈ b.used ∧ (b.blk c.base).ord = c.order)) ∨ hand = some c :=
  Iff.rfl

structure Sound (b : Buddy cpus) (first : Nat) (hand : Option Chunk) : Prop where
  tiling : Tiling (b.chunks hand) first b.maxIdx
  freeTag : ∀ o x, x ∈ b.freelist o → (b.blk x).tag = .free ∧ (b.blk x).ord = o ∧ o < orders
  usedTag : ∀ x ∈ b.used, (b.blk x).tag = .used ∧ (b.blk x).ord < orders
  liveOrd : ∀ c ∈ b.live, (b.blk c.base).ord = c.order
  handTag : ∀ c, hand = some c → (b.blk c.base).tag = .free ∧ c.order < orders ∧ (b.blk c.base).queued = false
  /-- The descriptors inside a block say how often it can be halved there. -/
  interior : ∀ c ∈ b.chunks hand, ∀ p, c.base < p → p < c.base + 2 ^ c.order →
    (b.blk p).tag = .free ∧ 2 ^ (b.blk p).ord ∣ p ∧ ¬ 2 ^ ((b.blk p).ord + 1) ∣ p
  queued : ∀ x, (b.blk x).queued = true ↔ (∃ o, x ∈ b.freelist o) ∨ x ∈ b.waiting
  nodupFree : ∀ o, (b.freelist o).Nodup
  nodupUsed : b.used.Nodup
  coalesced : Coalesced b.freeChunks (orders - 1)
  reserved : ∀ p, b.minIdx ≤ p → p < first → (b.blk p).tag = .used
  low : b.minIdx ≤ first

namespace Sound

variable {b : Buddy cpus} {first : Nat} {hand : Option Chunk}

theorem mem_free {o x : Nat} (member : x ∈ b.freelist o) :
    (⟨x, o⟩ : Chunk) ∈ b.chunks hand :=
  Or.inl (Or.inl member)

theorem mem_used {x : Nat} (member : x ∈ b.used) :
    (⟨x, (b.blk x).ord⟩ : Chunk) ∈ b.chunks hand :=
  Or.inl (Or.inr ⟨member, rfl⟩)

/-- A free block is not used. -/
theorem free_not_used (sound : b.Sound first hand) {o x : Nat} (member : x ∈ b.freelist o) : x ∉ b.used := by
  intro used
  have tag := (sound.freeTag o x member).1
  rw [(sound.usedTag x used).1] at tag
  cases tag

theorem hand_not_used {c : Chunk} (sound : b.Sound first (some c)) : c.base ∉ b.used := by
  intro used
  have tag := (sound.handTag c rfl).1
  rw [(sound.usedTag c.base used).1] at tag
  cases tag

theorem hand_not_free {c : Chunk} (sound : b.Sound first (some c)) (o : Nat) : c.base ∉ b.freelist o := by
  intro free
  have unqueued := (sound.handTag c rfl).2.2
  rw [(sound.queued c.base).mpr (Or.inl ⟨o, free⟩)] at unqueued
  cases unqueued

/-- The first page of a block is not inside another one. -/
theorem not_interior (sound : b.Sound first hand) {c d : Chunk} (hc : c ∈ b.chunks hand) (hd : d ∈ b.chunks hand)
    {p : Nat} (low : c.base < p) (high : p < c.base + 2 ^ c.order) : d.base ≠ p := by
  rintro rfl
  have same := sound.tiling.disjoint c hc d hd d.base ⟨le_of_lt low, high⟩ d.covers_base
  rw [same] at low
  exact lt_irrefl _ low

/-- A queued page is the first of a block. -/
theorem queued_head (sound : b.Sound first hand) {x : Nat} (queued : (b.blk x).queued = true) :
    ∃ o, (⟨x, o⟩ : Chunk) ∈ b.chunks hand := by
  rcases (sound.queued x).mp queued with ⟨o, free⟩ | waiting
  · exact ⟨o, mem_free free⟩
  · exact ⟨_, mem_used (List.mem_append_right _ waiting)⟩

end Sound

/-- An operation on the free lists leaves the rest. -/
structure Frame (b b' : Buddy cpus) : Prop where
  memBase : b'.memBase = b.memBase
  minIdx : b'.minIdx = b.minIdx
  maxIdx : b'.maxIdx = b.maxIdx
  waitlist : b'.waitlist = b.waitlist
  live : b'.live = b.live

theorem Frame.refl (b : Buddy cpus) : Frame b b := ⟨rfl, rfl, rfl, rfl, rfl⟩

theorem Frame.trans {b b' b'' : Buddy cpus} (first : Frame b b') (second : Frame b' b'') : Frame b b'' :=
  ⟨second.memBase.trans first.memBase, second.minIdx.trans first.minIdx, second.maxIdx.trans first.maxIdx,
    second.waitlist.trans first.waitlist, second.live.trans first.live⟩

theorem Frame.used {b b' : Buddy cpus} (frame : Frame b b') : b'.used = b.used := by
  unfold Buddy.used waiting
  rw [frame.live, frame.waitlist]

theorem Frame.waiting {b b' : Buddy cpus} (frame : Frame b b') : b'.waiting = b.waiting := by
  unfold Buddy.waiting
  rw [frame.waitlist]

/-! ## What the steps of an operation do to it -/

theorem blk_setBlk (b : Buddy cpus) (x : Nat) (f : Block → Block) (z : Nat) :
    (b.setBlk x f).blk z = if z = x then f (b.blk x) else b.blk z := by
  unfold setBlk
  by_cases same : z = x
  · subst same
    simp
  · simp [same]

/-- Nothing but links has changed. -/
structure SameBlocks (b b' : Buddy cpus) : Prop where
  tag : ∀ z, (b'.blk z).tag = (b.blk z).tag
  ord : ∀ z, (b'.blk z).ord = (b.blk z).ord

theorem sameBlocks_queue {b b' : Buddy cpus} {x : Nat} {q : Bool}
    (blk : b'.blk = (b.setBlk x fun k => { k with queued := q }).blk) : SameBlocks b b' := by
  constructor <;>
  · intro z
    rw [blk, blk_setBlk]
    split
    · rename_i same
      rw [same]
    · rfl

namespace Sound

variable {b : Buddy cpus} {first : Nat}

/-- Blocks change hands: the descriptors keep their orders and tags, and every block
lies in one that was there before. -/
theorem relink {b' : Buddy cpus} {hand hand' : Option Chunk} (sound : b.Sound first hand) (frame : Frame b b')
    (same : SameBlocks b b') (tiling : Tiling (b'.chunks hand') first b.maxIdx)
    (freeTag : ∀ o x, x ∈ b'.freelist o → (b.blk x).tag = .free ∧ (b.blk x).ord = o ∧ o < orders)
    (handTag : ∀ c, hand' = some c → (b.blk c.base).tag = .free ∧ c.order < orders ∧ (b'.blk c.base).queued = false)
    (nested : ∀ c ∈ b'.chunks hand', ∃ d ∈ b.chunks hand, d.base ≤ c.base ∧ c.base + 2 ^ c.order ≤ d.base + 2 ^ d.order)
    (queued : ∀ x, (b'.blk x).queued = true ↔ (∃ o, x ∈ b'.freelist o) ∨ x ∈ b.waiting)
    (nodup : ∀ o, (b'.freelist o).Nodup) (coalesced : Coalesced b'.freeChunks (orders - 1)) :
    b'.Sound first hand' where
  tiling := frame.maxIdx ▸ tiling
  freeTag := by
    intro o x free
    rw [same.tag, same.ord]
    exact freeTag o x free
  usedTag := by
    intro x used
    rw [same.tag, same.ord]
    exact sound.usedTag x (frame.used ▸ used)
  liveOrd := by
    intro c live
    rw [same.ord]
    exact sound.liveOrd c (frame.live ▸ live)
  handTag := by
    intro c mine
    rw [same.tag]
    exact handTag c mine
  interior := by
    intro c inside p low high
    rw [same.tag, same.ord]
    obtain ⟨d, member, below, above⟩ := nested c inside
    exact sound.interior d member p (lt_of_le_of_lt below low) (lt_of_lt_of_le high above)
  queued := by
    rw [frame.waiting]
    exact queued
  nodupFree := nodup
  nodupUsed := by
    rw [frame.used]
    exact sound.nodupUsed
  coalesced := coalesced
  reserved := by
    intro p low high
    rw [same.tag]
    exact sound.reserved p (frame.minIdx ▸ low) high
  low := by
    rw [frame.minIdx]
    exact sound.low

/-- A queued page is taken off a list. -/
theorem unlink_spec {o x : Nat} (queued : (b.blk x).queued = true) (nodup : ∀ o, (b.freelist o).Nodup) :
    ∃ b', b.unlink o x = some b' ∧ Frame b b' ∧ SameBlocks b b' ∧
      (∀ o' z, z ∈ b'.freelist o' ↔ z ∈ b.freelist o' ∧ ¬ (z = x ∧ o' = o)) ∧
      (∀ z, (b'.blk z).queued = true ↔ (b.blk z).queued = true ∧ z ≠ x) ∧ ∀ o, (b'.freelist o).Nodup := by
  obtain ⟨b', made⟩ : ∃ b', b.unlink o x = some b' := ⟨_, if_pos queued⟩
  refine ⟨b', made, ?_⟩
  rw [Buddy.unlink, if_pos queued, Option.some.injEq] at made
  refine ⟨by subst made; exact ⟨rfl, rfl, rfl, rfl, rfl⟩, sameBlocks_queue (x := x) (q := false) (by rw [← made]), ?_, ?_, ?_⟩
  · intro o' z
    rw [← made]
    by_cases here : o' = o
    · subst here
      simp [(nodup o').mem_erase_iff, and_comm]
    · simp [here]
  · intro z
    rw [← made]
    by_cases here : z = x
    · simp [blk_setBlk, here]
    · simp [blk_setBlk, here]
  · intro o'
    rw [← made]
    by_cases here : o' = o
    · subst here
      simpa using (nodup o').erase x
    · simpa [here] using nodup o'

/-- A free block is on one list. -/
theorem free_once {hand : Option Chunk} (sound : b.Sound first hand) {o o' x : Nat} (member : x ∈ b.freelist o)
    (other : x ∈ b.freelist o') : o' = o :=
  (sound.freeTag o' x other).2.1.symm.trans (sound.freeTag o x member).2.1

/-- A free block is taken off its list. -/
theorem unlink {o x : Nat} (sound : b.Sound first none) (member : x ∈ b.freelist o) :
    ∃ b', b.unlink o x = some b' ∧ b'.Sound first (some ⟨x, o⟩) ∧ Frame b b' := by
  have on : (b.blk x).queued = true := (sound.queued x).mpr (Or.inl ⟨o, member⟩)
  obtain ⟨b', made, frame, same, lists, queued, nodup⟩ := unlink_spec (o := o) on sound.nodupFree
  have chunks : ∀ c, c ∈ b'.chunks (some ⟨x, o⟩) ↔ c ∈ b.chunks none := by
    intro c
    simp only [mem_chunks, frame.used, same.ord, lists, Option.some.injEq]
    constructor
    · rintro ((⟨old, -⟩ | old) | rfl)
      · exact Or.inl (Or.inl old)
      · exact Or.inl (Or.inr old)
      · exact Or.inl (Or.inl member)
    · rintro ((old | old) | none)
      · by_cases here : c.base = x ∧ c.order = o
        · exact Or.inr (by rw [← here.1, ← here.2])
        · exact Or.inl (Or.inl ⟨old, here⟩)
      · exact Or.inl (Or.inr old)
      · cases none
  refine ⟨b', made, sound.relink frame same (sound.tiling.congr chunks) ?_ ?_ ?_ ?_ nodup ?_, frame⟩
  · intro o' z free
    exact sound.freeTag o' z ((lists o' z).mp free).1
  · rintro c ⟨⟩
    obtain ⟨tag, -, small⟩ := sound.freeTag o x member
    exact ⟨tag, small, Bool.eq_false_iff.mpr fun still => ((queued x).mp still).2 rfl⟩
  · intro c inside
    exact ⟨c, (chunks c).mp inside, le_refl _, le_refl _⟩
  · intro z
    rw [queued, sound.queued]
    simp only [lists]
    constructor
    · rintro ⟨⟨o', free⟩ | waiting, other⟩
      · exact Or.inl ⟨o', free, fun e => other e.1⟩
      · exact Or.inr waiting
    · rintro (⟨o', free, other⟩ | waiting)
      · refine ⟨Or.inl ⟨o', free⟩, ?_⟩
        rintro rfl
        exact other ⟨rfl, sound.free_once member free⟩
      · refine ⟨Or.inr waiting, ?_⟩
        rintro rfl
        exact sound.free_not_used member (List.mem_append_right _ waiting)
  · intro c free below other
    exact sound.coalesced c ((lists _ _).mp free).1 below ((lists _ _).mp other).1

/-- A page that is not queued is put on the list of its order. -/
theorem enqueue_spec {x : Nat} (unqueued : (b.blk x).queued = false) :
    ∃ b', b.enqueue x = some b' ∧ Frame b b' ∧ SameBlocks b b' ∧
      (∀ o z, z ∈ b'.freelist o ↔ z ∈ b.freelist o ∨ (z = x ∧ o = (b.blk x).ord)) ∧
      (∀ z, (b'.blk z).queued = true ↔ (b.blk z).queued = true ∨ z = x) ∧
      ((∀ o, (b.freelist o).Nodup) → x ∉ b.freelist (b.blk x).ord → ∀ o, (b'.freelist o).Nodup) := by
  obtain ⟨b', made⟩ : ∃ b', b.enqueue x = some b' := ⟨_, if_neg (by rw [unqueued]; decide)⟩
  refine ⟨b', made, ?_⟩
  rw [Buddy.enqueue, if_neg (by rw [unqueued]; decide), Option.some.injEq] at made
  refine ⟨by subst made; exact ⟨rfl, rfl, rfl, rfl, rfl⟩, sameBlocks_queue (x := x) (q := true) (by rw [← made]), ?_, ?_, ?_⟩
  · intro o z
    rw [← made]
    by_cases here : o = (b.blk x).ord
    · subst here
      simp [or_comm]
    · simp [here]
  · intro z
    rw [← made]
    by_cases here : z = x
    · simp [blk_setBlk, here]
    · simp [blk_setBlk, here]
  · intro nodup fresh o
    rw [← made]
    by_cases here : o = (b.blk x).ord
    · subst here
      simpa using ⟨fresh, nodup _⟩
    · simpa [here] using nodup o

/-- The upper half of the block in hand goes to its list. -/
theorem halve {o x : Nat} (sound : b.Sound first (some ⟨x, o + 1⟩)) :
    (b.blk (x + 2 ^ o)).ord = o ∧
      ∃ b', b.enqueue (x + 2 ^ o) = some b' ∧ b'.Sound first (some ⟨x, o⟩) ∧ Frame b b' := by
  have mine : (⟨x, o + 1⟩ : Chunk) ∈ b.chunks (some ⟨x, o + 1⟩) := Or.inr rfl
  have even : 2 ^ (o + 1) ∣ x := sound.tiling.aligned _ mine
  have pos := Nat.two_pow_pos o
  have width : 2 ^ (o + 1) = 2 ^ o + 2 ^ o := by rw [Nat.pow_succ]; omega
  obtain ⟨tag, divides, tight⟩ := sound.interior _ mine (x + 2 ^ o) (by show x < _; omega)
    (by show _ < x + 2 ^ (o + 1); omega)
  have order : (b.blk (x + 2 ^ o)).ord = o := by
    obtain ⟨unit, odd⟩ := half_aligned even
    rcases Nat.lt_trichotomy (b.blk (x + 2 ^ o)).ord o with less | same | more
    · exact absurd (dvd_trans (Nat.pow_dvd_pow 2 less) unit) tight
    · exact same
    · exact absurd (dvd_trans (Nat.pow_dvd_pow 2 more) divides) odd
  have inner : ∀ c ∈ b.chunks (some ⟨x, o + 1⟩), c.base ≠ x + 2 ^ o := fun c member =>
    sound.not_interior mine member (by show x < _; omega) (by show _ < x + 2 ^ (o + 1); omega)
  have unqueued : (b.blk (x + 2 ^ o)).queued = false := by
    rw [← Bool.not_eq_true]
    intro queued
    obtain ⟨o', head⟩ := sound.queued_head queued
    exact inner _ head rfl
  obtain ⟨b', made, frame, same, lists, queued, nodup⟩ := enqueue_spec unqueued
  rw [order] at lists nodup
  refine ⟨order, b', made, sound.relink frame same ?_ ?_ ?_ ?_ ?_ ?_ ?_, frame⟩
  · refine sound.tiling.split mine fun c => ?_
    simp only [mem_chunks, frame.used, same.ord, lists, Option.some.injEq]
    constructor
    · rintro (((old | ⟨base, ord⟩) | old) | hand)
      · exact Or.inl ⟨Or.inl (Or.inl old), fun e => sound.hand_not_free c.order (by rw [e] at old ⊢; exact old)⟩
      · exact Or.inr (Or.inr (by rw [← base, ← ord]))
      · exact Or.inl ⟨Or.inl (Or.inr old), fun e => sound.hand_not_used (by rw [e] at old; exact old.1)⟩
      · exact Or.inr (Or.inl hand.symm)
    · rintro (⟨(old | old) | hand, other⟩ | rfl | rfl)
      · exact Or.inl (Or.inl (Or.inl old))
      · exact Or.inl (Or.inr old)
      · exact absurd hand.symm other
      · exact Or.inr rfl
      · exact Or.inl (Or.inl (Or.inr ⟨rfl, rfl⟩))
  · intro o' z free
    rcases (lists o' z).mp free with old | ⟨rfl, rfl⟩
    · exact sound.freeTag o' z old
    · have := (sound.handTag _ rfl).2.1
      exact ⟨tag, order, Nat.lt_of_succ_lt this⟩
  · rintro c ⟨⟩
    obtain ⟨tag, small, off⟩ := sound.handTag _ rfl
    refine ⟨tag, Nat.lt_of_succ_lt small, ?_⟩
    rw [← Bool.not_eq_true, queued]
    rintro (on | e)
    · rw [off] at on
      cases on
    · simp at e
  · intro c inside
    rcases inside with (free | used) | hand
    · rcases (lists _ _).mp free with old | ⟨base, ord⟩
      · exact ⟨c, Or.inl (Or.inl old), le_refl _, le_refl _⟩
      · refine ⟨_, mine, ?_, ?_⟩
        · rw [base]; show x ≤ _; omega
        · rw [base, ord]; show _ ≤ x + 2 ^ (o + 1); omega
    · refine ⟨c, Or.inl (Or.inr ⟨frame.used ▸ used.1, (same.ord _).symm.trans used.2⟩), le_refl _, le_refl _⟩
    · cases hand
      refine ⟨_, mine, le_refl _, ?_⟩
      show x + 2 ^ o ≤ x + 2 ^ (o + 1)
      omega
  · intro z
    rw [queued, sound.queued]
    simp only [lists]
    constructor
    · rintro ((⟨o', old⟩ | old) | rfl)
      · exact Or.inl ⟨o', Or.inl old⟩
      · exact Or.inr old
      · exact Or.inl ⟨o, Or.inr ⟨rfl, rfl⟩⟩
    · rintro (⟨o', old | ⟨rfl, -⟩⟩ | old)
      · exact Or.inl (Or.inl ⟨o', old⟩)
      · exact Or.inr rfl
      · exact Or.inl (Or.inr old)
  · exact nodup sound.nodupFree fun free => inner _ (mem_free free) rfl
  · -- the buddy of the upper half is in hand
    have lower : ∀ c : Chunk, c.buddy = ⟨x + 2 ^ o, o⟩ → c = ⟨x, o⟩ := by
      intro c e
      rw [← c.buddy_buddy, e, ← Chunk.buddy_lower even, Chunk.buddy_buddy]
    intro c free below other
    rcases (lists _ _).mp free with old | ⟨base, ord⟩
    · rcases (lists _ _).mp other with old' | ⟨base', ord'⟩
      · exact sound.coalesced c old below old'
      · have e := lower c (by rw [← base', ← ord'])
        rw [e] at old
        exact sound.hand_not_free _ old
    · have e : c = ⟨x + 2 ^ o, o⟩ := by rw [← base, ← ord]
      have back : c.buddy = ⟨x, o⟩ := by rw [e, ← Chunk.buddy_lower even, Chunk.buddy_buddy]
      rw [back] at other
      rcases (lists _ _).mp other with old' | ⟨base', -⟩
      · exact sound.hand_not_free _ old'
      · simp at base'

/-- The block in hand goes to its list, if its buddy is not there. -/
theorem put {o x : Nat} (sound : b.Sound first (some ⟨x, o⟩)) (order : (b.blk x).ord = o)
    (alone : o + 1 < orders → x ^^^ 2 ^ o ∉ b.freelist o) :
    ∃ b', b.enqueue x = some b' ∧ b'.Sound first none ∧ Frame b b' := by
  obtain ⟨tag, small, off⟩ := sound.handTag _ rfl
  obtain ⟨b', made, frame, same, lists, queued, nodup⟩ := enqueue_spec off
  simp only [order] at lists nodup
  have chunks : ∀ c, c ∈ b'.chunks none ↔ c ∈ b.chunks (some ⟨x, o⟩) := by
    intro c
    simp only [mem_chunks, frame.used, same.ord, lists, Option.some.injEq]
    constructor
    · rintro (((old | ⟨base, ord⟩) | old) | none)
      · exact Or.inl (Or.inl old)
      · exact Or.inr (by rw [← base, ← ord])
      · exact Or.inl (Or.inr old)
      · cases none
    · rintro ((old | old) | rfl)
      · exact Or.inl (Or.inl (Or.inl old))
      · exact Or.inl (Or.inr old)
      · exact Or.inl (Or.inl (Or.inr ⟨rfl, rfl⟩))
  refine ⟨b', made, sound.relink frame same (sound.tiling.congr chunks) ?_ ?_ ?_ ?_ ?_ ?_, frame⟩
  · intro o' z free
    rcases (lists o' z).mp free with old | ⟨rfl, rfl⟩
    · exact sound.freeTag o' z old
    · exact ⟨tag, order, small⟩
  · intro c none
    cases none
  · intro c inside
    exact ⟨c, (chunks c).mp inside, le_refl _, le_refl _⟩
  · intro z
    rw [queued, sound.queued]
    simp only [lists]
    constructor
    · rintro ((⟨o', old⟩ | old) | rfl)
      · exact Or.inl ⟨o', Or.inl old⟩
      · exact Or.inr old
      · exact Or.inl ⟨o, Or.inr ⟨rfl, rfl⟩⟩
    · rintro (⟨o', old | ⟨rfl, -⟩⟩ | old)
      · exact Or.inl (Or.inl ⟨o', old⟩)
      · exact Or.inr rfl
      · exact Or.inl (Or.inr old)
  · exact nodup sound.nodupFree (sound.hand_not_free o)
  · intro c free below other
    rcases (lists _ _).mp free with old | ⟨base, ord⟩
    · rcases (lists _ _).mp other with old' | ⟨base', ord'⟩
      · exact sound.coalesced c old below old'
      · -- its buddy is the block put back
        have e : c = (⟨x, o⟩ : Chunk).buddy := by rw [← base', ← ord', Chunk.buddy_buddy]
        rw [e] at old below
        exact alone (by show o + 1 < 10; have : o < 9 := below; omega) old
    · have e : c = ⟨x, o⟩ := by rw [← base, ← ord]
      rw [e] at below other
      rcases (lists _ _).mp other with old' | ⟨base', -⟩
      · exact alone (by show o + 1 < 10; have : o < 9 := below; omega) old'
      · have := congrArg (x ^^^ ·) base'
        simp [Chunk.buddy] at this

/-- The block in hand is given out as a block of its order. -/
theorem use {o x : Nat} (sound : b.Sound first (some ⟨x, o⟩)) :
    ({ b.setBlk x fun k => { k with ord := o, tag := .used } with live := ⟨x, o⟩ :: b.live } : Buddy cpus).Sound
      first none := by
  generalize made : ({ b.setBlk x fun k => { k with ord := o, tag := .used } with live := ⟨x, o⟩ :: b.live } : Buddy cpus) = b'
  have mine : (⟨x, o⟩ : Chunk) ∈ b.chunks (some ⟨x, o⟩) := Or.inr rfl
  obtain ⟨-, small, off⟩ := sound.handTag _ rfl
  have unused : x ∉ b.used := sound.hand_not_used
  have self : b'.blk x = { b.blk x with ord := o, tag := .used } := by rw [← made]; simp [blk_setBlk]
  have other : ∀ z, z ≠ x → b'.blk z = b.blk z := by
    intro z ne
    rw [← made]
    simp [blk_setBlk, ne]
  have lists : b'.freelist = b.freelist := by rw [← made]; rfl
  have waiting : b'.waiting = b.waiting := by rw [← made]; rfl
  have used : b'.used = x :: b.used := by rw [← made]; rfl
  have live : b'.live = ⟨x, o⟩ :: b.live := by rw [← made]
  have chunks : ∀ c, c ∈ b'.chunks none ↔ c ∈ b.chunks (some ⟨x, o⟩) := by
    intro c
    simp only [mem_chunks, lists, used, List.mem_cons, Option.some.injEq]
    by_cases here : c.base = x
    · simp only [here, self, true_and, unused, false_and, or_false]
      constructor
      · rintro ((free | ord) | none)
        · exact Or.inl free
        · exact Or.inr (by rw [← here, ord])
        · cases none
      · rintro (free | rfl)
        · exact Or.inl (Or.inl free)
        · exact Or.inl (Or.inr rfl)
    · simp only [here, false_or, other _ here]
      constructor
      · rintro (old | none)
        · exact Or.inl old
        · cases none
      · rintro (old | rfl)
        · exact Or.inl old
        · exact absurd rfl here
  have free_ne : ∀ {o' z}, z ∈ b.freelist o' → z ≠ x := by
    rintro o' z free rfl
    exact sound.hand_not_free o' free
  refine ⟨?_, ?_, ?_, ?_, fun _ none => (nomatch none), ?_, ?_, ?_, ?_, ?_, ?_, ?_⟩
  · have tiling := sound.tiling.congr chunks
    rw [← made] at tiling ⊢
    exact tiling
  · intro o' z free
    rw [lists] at free
    rw [other z (free_ne free)]
    exact sound.freeTag o' z free
  · intro z member
    rw [used] at member
    rcases List.mem_cons.mp member with rfl | old
    · rw [self]
      exact ⟨rfl, small⟩
    · rw [other z fun e => unused (e ▸ old)]
      exact sound.usedTag z old
  · intro c member
    rw [live] at member
    rcases List.mem_cons.mp member with rfl | old
    · rw [self]
    · have ne : c.base ≠ x := fun e => unused (e ▸ List.mem_append_left _ (List.mem_map_of_mem old))
      rw [other _ ne]
      exact sound.liveOrd c old
  · intro c inside p low high
    have old := (chunks c).mp inside
    rw [other p (Ne.symm (sound.not_interior old mine low high))]
    exact sound.interior c old p low high
  · intro z
    rw [lists, waiting]
    by_cases here : z = x
    · subst here
      rw [self]
      exact sound.queued z
    · rw [other z here]
      exact sound.queued z
  · rw [lists]
    exact sound.nodupFree
  · rw [used]
    exact List.nodup_cons.mpr ⟨unused, sound.nodupUsed⟩
  · unfold freeChunks
    rw [lists]
    exact sound.coalesced
  · intro p low high
    have min : b'.minIdx = b.minIdx := by rw [← made]; rfl
    have ne : p ≠ x := by
      have := (sound.tiling.inside _ mine).1
      exact Nat.ne_of_lt (lt_of_lt_of_le high this)
    rw [other p ne]
    exact sound.reserved p (min ▸ low) high
  · have min : b'.minIdx = b.minIdx := by rw [← made]; rfl
    rw [min]
    exact sound.low

/-- A used block is taken in hand and marked free. -/
theorem release {b' : Buddy cpus} {x : Nat} (sound : b.Sound first none) (member : x ∈ b.used)
    (bounds : b'.minIdx = b.minIdx ∧ b'.maxIdx = b.maxIdx) (lists : b'.freelist = b.freelist)
    (self : (b'.blk x).tag = .free ∧ (b'.blk x).ord = (b.blk x).ord ∧ (b'.blk x).queued = false)
    (other : ∀ z, z ≠ x → b'.blk z = b.blk z) (used : ∀ z, z ∈ b'.used ↔ z ∈ b.used ∧ z ≠ x)
    (waiting : ∀ z, z ∈ b'.waiting ↔ z ∈ b.waiting ∧ z ≠ x) (live : ∀ c ∈ b'.live, c ∈ b.live ∧ c.base ≠ x)
    (nodup : b'.used.Nodup) : b'.Sound first (some ⟨x, (b.blk x).ord⟩) := by
  have head : (⟨x, (b.blk x).ord⟩ : Chunk) ∈ b.chunks none := mem_used member
  have free_ne : ∀ {o z}, z ∈ b.freelist o → z ≠ x := by
    rintro o z free rfl
    exact sound.free_not_used free member
  have chunks : ∀ c, c ∈ b'.chunks (some ⟨x, (b.blk x).ord⟩) ↔ c ∈ b.chunks none := by
    intro c
    simp only [mem_chunks, lists, used, Option.some.injEq]
    constructor
    · rintro ((free | ⟨⟨old, ne⟩, ord⟩) | rfl)
      · exact Or.inl (Or.inl free)
      · exact Or.inl (Or.inr ⟨old, by rw [← other _ ne]; exact ord⟩)
      · exact Or.inl (Or.inr ⟨member, rfl⟩)
    · rintro ((free | ⟨old, ord⟩) | none)
      · exact Or.inl (Or.inl free)
      · by_cases here : c.base = x
        · exact Or.inr (by rw [← here, ord])
        · exact Or.inl (Or.inr ⟨⟨old, here⟩, by rw [other _ here]; exact ord⟩)
      · cases none
  refine ⟨bounds.2 ▸ sound.tiling.congr chunks, ?_, ?_, ?_, ?_, ?_, ?_, ?_, nodup, ?_, ?_, ?_⟩
  · intro o z free
    rw [lists] at free
    rw [other z (free_ne free)]
    exact sound.freeTag o z free
  · intro z still
    obtain ⟨old, ne⟩ := (used z).mp still
    rw [other z ne]
    exact sound.usedTag z old
  · intro c still
    obtain ⟨old, ne⟩ := live c still
    rw [other _ ne]
    exact sound.liveOrd c old
  · rintro c ⟨⟩
    exact ⟨self.1, (sound.usedTag x member).2, self.2.2⟩
  · intro c inside p low high
    have old := (chunks c).mp inside
    rw [other p (Ne.symm (sound.not_interior old head low high))]
    exact sound.interior c old p low high
  · intro z
    rw [lists, waiting]
    by_cases here : z = x
    · subst here
      rw [self.2.2]
      simp only [Bool.false_eq_true, false_iff, not_or, not_exists, ne_eq, not_true_eq_false, and_false, not_false_eq_true,
        and_true]
      exact fun o free => free_ne free rfl
    · rw [other z here, sound.queued z]
      simp [here]
  · rw [lists]
    exact sound.nodupFree
  · unfold freeChunks
    rw [lists]
    exact sound.coalesced
  · intro p low high
    have ne : p ≠ x := Nat.ne_of_lt (lt_of_lt_of_le high (sound.tiling.inside _ head).1)
    rw [other p ne]
    exact sound.reserved p (bounds.1 ▸ low) high
  · rw [bounds.1]
    exact sound.low

/-- The block in hand is joined with its buddy. -/
theorem join {o x : Nat} (sound : b.Sound first (some ⟨x, o⟩)) (order : (b.blk x).ord = o) (room : o + 1 < orders)
    (member : x ^^^ 2 ^ o ∈ b.freelist o) :
    ∃ b', b.dequeue (x ^^^ 2 ^ o) = some b' ∧
      let m := if x ^^^ 2 ^ o < x then x ^^^ 2 ^ o else x
      let b'' := b'.setBlk m fun k => { k with ord := o + 1 }
      b''.Sound first (some ⟨m, o + 1⟩) ∧ (b''.blk m).ord = o + 1 ∧ Frame b b'' := by
  have mine : (⟨x, o⟩ : Chunk) ∈ b.chunks (some ⟨x, o⟩) := Or.inr rfl
  have theirs : (⟨x ^^^ 2 ^ o, o⟩ : Chunk) ∈ b.chunks (some ⟨x, o⟩) := mem_free member
  obtain ⟨tag, -, off⟩ := sound.handTag _ rfl
  obtain ⟨tag', order', -⟩ := sound.freeTag o _ member
  have on : (b.blk (x ^^^ 2 ^ o)).queued = true := (sound.queued _).mpr (Or.inl ⟨o, member⟩)
  obtain ⟨b', made, frame, same, lists, queued, nodup⟩ := unlink_spec (o := o) on sound.nodupFree
  refine ⟨b', by rw [Buddy.dequeue, order']; exact made, ?_⟩
  -- the two halves, in order
  have pos := Nat.two_pow_pos o
  obtain ⟨m, even, low, halves⟩ : ∃ m, 2 ^ (o + 1) ∣ m ∧ (if x ^^^ 2 ^ o < x then x ^^^ 2 ^ o else x) = m ∧
      ((x = m ∧ x ^^^ 2 ^ o = m + 2 ^ o) ∨ (x = m + 2 ^ o ∧ x ^^^ 2 ^ o = m)) := by
    obtain ⟨m, even, ⟨hx, hy⟩ | ⟨hx, hy⟩⟩ := Chunk.buddy_cases (sound.tiling.aligned _ mine)
    · have hx : x = m := congrArg Chunk.base hx
      have hy : x ^^^ 2 ^ o = m + 2 ^ o := congrArg Chunk.base hy
      exact ⟨m, even, by rw [hy, hx, if_neg (by omega)], Or.inl ⟨hx, hy⟩⟩
    · have hx : x = m + 2 ^ o := congrArg Chunk.base hx
      have hy : x ^^^ 2 ^ o = m := congrArg Chunk.base hy
      exact ⟨m, even, by rw [hy, hx, if_pos (by omega)], Or.inr ⟨hx, hy⟩⟩
  simp only [low]
  generalize done : (b'.setBlk m fun k => { k with ord := o + 1 }) = b''
  have frame' : Frame b b'' := frame.trans (by rw [← done]; exact ⟨rfl, rfl, rfl, rfl, rfl⟩)
  have lists' : b''.freelist = b'.freelist := by rw [← done]; rfl
  have tags : ∀ z, (b''.blk z).tag = (b.blk z).tag := by
    intro z
    rw [← same.tag, ← done, blk_setBlk]
    split
    · rename_i here; rw [here]
    · rfl
  have ords : ∀ z, (b''.blk z).ord = if z = m then o + 1 else (b.blk z).ord := by
    intro z
    rw [← done, blk_setBlk]
    split
    · rfl
    · exact same.ord z
  have queued' : ∀ z, (b''.blk z).queued = true ↔ (b.blk z).queued = true ∧ z ≠ x ^^^ 2 ^ o := by
    intro z
    rw [← queued, ← done, blk_setBlk]
    split
    · rename_i here; rw [here]
    · rfl
  have m_tag : (b.blk m).tag = .free := by
    rcases halves with ⟨rfl, -⟩ | ⟨-, e⟩
    · exact tag
    · exact e ▸ tag'
  have m_unused : m ∉ b.used := by
    intro used
    rw [(sound.usedTag m used).1] at m_tag
    cases m_tag
  have m_head : (⟨m, o⟩ : Chunk) ∈ b.chunks (some ⟨x, o⟩) := by
    rcases halves with ⟨e, -⟩ | ⟨-, e⟩
    · exact e ▸ mine
    · exact e ▸ theirs
  have u_head : (⟨m + 2 ^ o, o⟩ : Chunk) ∈ b.chunks (some ⟨x, o⟩) := by
    rcases halves with ⟨-, e⟩ | ⟨e, -⟩
    · exact e ▸ theirs
    · exact e ▸ mine
  have upper : (b.blk (m + 2 ^ o)).tag = .free ∧ (b.blk (m + 2 ^ o)).ord = o := by
    rcases halves with ⟨-, e⟩ | ⟨e, -⟩
    · exact e ▸ ⟨tag', order'⟩
    · exact e ▸ ⟨tag, order⟩
  have m_list : ∀ o', m ∉ b'.freelist o' := by
    intro o' free
    obtain ⟨old, other⟩ := (lists o' m).mp free
    rcases halves with ⟨rfl, -⟩ | ⟨-, e⟩
    · exact sound.hand_not_free o' old
    · exact other ⟨e.symm, sound.free_once (o := o) (e ▸ member) old⟩
  have width : 2 ^ (o + 1) = 2 ^ o + 2 ^ o := by rw [Nat.pow_succ]; omega
  have halves' : ∀ c : Chunk, (c = ⟨m, o⟩ ∨ c = ⟨m + 2 ^ o, o⟩) ↔ (c = ⟨x, o⟩ ∨ c = ⟨x ^^^ 2 ^ o, o⟩) := by
    intro c
    rcases halves with ⟨e, e'⟩ | ⟨e, e'⟩
    · rw [e', ← e]
    · rw [e', ← e]
      exact or_comm
  have chunks : ∀ c, c ∈ b''.chunks (some ⟨m, o + 1⟩) ↔
      (c ∈ b.chunks (some ⟨x, o⟩) ∧ c ≠ ⟨m, o⟩ ∧ c ≠ ⟨m + 2 ^ o, o⟩) ∨ c = ⟨m, o + 1⟩ := by
    intro c
    have others : (c ≠ ⟨m, o⟩ ∧ c ≠ ⟨m + 2 ^ o, o⟩) ↔ (c ≠ ⟨x, o⟩ ∧ c ≠ ⟨x ^^^ 2 ^ o, o⟩) := by
      rw [ne_eq, ne_eq, ne_eq, ne_eq, ← not_or, ← not_or, halves']
    rw [others]
    simp only [mem_chunks, lists', lists, frame'.used, ords, Option.some.injEq]
    constructor
    · rintro ((⟨free, other⟩ | ⟨used, ord⟩) | rfl)
      · refine Or.inl ⟨Or.inl (Or.inl free), fun e => ?_, fun e => other ?_⟩
        · rw [e] at free
          exact sound.hand_not_free _ free
        · rw [e]
          exact ⟨rfl, rfl⟩
      · rw [if_neg fun e => m_unused (by rw [← e]; exact used)] at ord
        refine Or.inl ⟨Or.inl (Or.inr ⟨used, ord⟩), fun e => ?_, fun e => ?_⟩
        · rw [e] at used
          exact sound.hand_not_used used
        · rw [e] at used
          exact sound.free_not_used member used
      · exact Or.inr rfl
    · rintro (⟨(free | ⟨used, ord⟩) | hand, notMine, notTheirs⟩ | rfl)
      · refine Or.inl (Or.inl ⟨free, fun e => notTheirs ?_⟩)
        rw [← e.1, ← e.2]
      · refine Or.inl (Or.inr ⟨used, ?_⟩)
        rw [if_neg fun e => m_unused (by rw [← e]; exact used)]
        exact ord
      · exact absurd hand.symm notMine
      · exact Or.inr rfl
  have kept : ∀ z, z ≠ m → (b''.blk z).ord = (b.blk z).ord := fun z ne => (ords z).trans (if_neg ne)
  refine ⟨⟨?_, ?_, ?_, ?_, ?_, ?_, ?_, ?_, ?_, ?_, ?_, ?_⟩, ?_, frame'⟩
  · rw [frame'.maxIdx]
    exact sound.tiling.join even m_head u_head chunks
  · intro o' z free
    rw [lists'] at free
    rw [tags, kept z fun e => m_list o' (e ▸ free)]
    exact sound.freeTag o' z ((lists o' z).mp free).1
  · intro z used
    rw [frame'.used] at used
    rw [tags, kept z fun e => m_unused (e ▸ used)]
    exact sound.usedTag z used
  · intro c live
    rw [frame'.live] at live
    have ne : c.base ≠ m := fun e => m_unused (e ▸ List.mem_append_left _ (List.mem_map_of_mem live))
    rw [kept _ ne]
    exact sound.liveOrd c live
  · rintro c ⟨⟩
    refine ⟨(tags m).trans m_tag, room, ?_⟩
    rw [← Bool.not_eq_true, queued']
    rintro ⟨still, ne⟩
    rcases halves with ⟨rfl, -⟩ | ⟨-, e⟩
    · rw [off] at still
      cases still
    · exact ne e.symm
  · intro c inside p low' high
    rcases (chunks c).mp inside with ⟨old, -⟩ | rfl
    · rw [tags, kept p (Ne.symm (sound.not_interior old m_head low' high))]
      exact sound.interior c old p low' high
    · have low' : m < p := low'
      have high : p < m + 2 ^ (o + 1) := high
      rw [tags, kept p (by omega)]
      rcases Nat.lt_trichotomy p (m + 2 ^ o) with less | rfl | more
      · exact sound.interior _ m_head p low' less
      · rw [upper.2]
        exact ⟨upper.1, half_aligned even⟩
      · exact sound.interior _ u_head p more (by show p < m + 2 ^ o + 2 ^ o; omega)
  · intro z
    rw [frame'.waiting, queued', sound.queued]
    simp only [lists', lists]
    constructor
    · rintro ⟨⟨o', free⟩ | waiting, other⟩
      · exact Or.inl ⟨o', free, fun e => other e.1⟩
      · exact Or.inr waiting
    · rintro (⟨o', free, other⟩ | waiting)
      · refine ⟨Or.inl ⟨o', free⟩, ?_⟩
        rintro rfl
        exact other ⟨rfl, sound.free_once member free⟩
      · refine ⟨Or.inr waiting, ?_⟩
        rintro rfl
        exact sound.free_not_used member (List.mem_append_right _ waiting)
  · rw [lists']
    exact nodup
  · rw [frame'.used]
    exact sound.nodupUsed
  · intro c free below other
    have free : c.base ∈ b''.freelist c.order := free
    have other : c.buddy.base ∈ b''.freelist c.buddy.order := other
    rw [lists'] at free other
    exact sound.coalesced c ((lists _ _).mp free).1 below ((lists _ _).mp other).1
  · intro p low' high
    rw [tags]
    exact sound.reserved p (frame'.minIdx ▸ low') high
  · rw [frame'.minIdx]
    exact sound.low
  · rw [ords, if_pos rfl]

/-! ## What the operations do to it -/

theorem split {ord x : Nat} :
    ∀ (d : Nat) {b : Buddy cpus}, b.Sound first (some ⟨x, ord + d⟩) →
      ∃ b', Buddy.split ord x d b = some b' ∧ b'.Sound first (some ⟨x, ord⟩) ∧ Frame b b'
  | 0, b, sound => ⟨b, rfl, sound, Frame.refl b⟩
  | d + 1, b, sound => by
      obtain ⟨order, b', made, sound', frame⟩ := halve (o := ord + d) sound
      obtain ⟨b'', rest, sound'', frame'⟩ := split d sound'
      refine ⟨b'', ?_, sound'', frame.trans frame'⟩
      simp only [Buddy.split]
      rw [if_pos order, made]
      exact rest

/-- What `alloc (ord)` answers in the state `b` -/
def Answers (ord : Nat) (b : Buddy cpus) (r : Option Nat × Buddy cpus) : Prop :=
  (r = (none, b) ∧ ∀ o, ord ≤ o → b.freelist o = []) ∨
    ∃ x o, ord ≤ o ∧ x ∈ b.freelist o ∧ r.1 = some (b.indexToPage x) ∧
      r.2.live = ⟨x, ord⟩ :: b.live ∧ r.2.waitlist = b.waitlist ∧ r.2.memBase = b.memBase ∧
      r.2.minIdx = b.minIdx ∧ r.2.maxIdx = b.maxIdx

theorem allocFrom {ord : Nat} (sound : b.Sound first none) :
    ∀ (n d : Nat), orders ≤ ord + d + n → (∀ o, ord ≤ o → o < ord + d → b.freelist o = []) →
      ∃ r, Buddy.allocFrom ord n d b = some r ∧ r.2.Sound first none ∧ Answers ord b r
  | 0, d, last, empty => by
      refine ⟨(none, b), rfl, sound, Or.inl ⟨rfl, fun o ge => ?_⟩⟩
      by_cases tried : o < ord + d
      · exact empty o ge tried
      · cases list : b.freelist o with
        | nil => rfl
        | cons x rest =>
            have small := (sound.freeTag o x (by rw [list]; exact List.mem_cons_self)).2.2
            exact absurd small (by omega)
  | n + 1, d, last, empty => by
      simp only [Buddy.allocFrom]
      cases list : b.freelist (ord + d) with
      | nil =>
          refine allocFrom sound n (d + 1) (by omega) fun o ge lt => ?_
          rcases Nat.lt_succ_iff_lt_or_eq.mp (show o < ord + d + 1 from lt) with tried | rfl
          · exact empty o ge tried
          · exact list
      | cons x rest =>
          obtain ⟨b₁, taken, sound₁, frame₁⟩ := sound.unlink (o := ord + d) (x := x)
            (by rw [list]; exact List.mem_cons_self)
          obtain ⟨b₂, halved, sound₂, frame₂⟩ := split d sound₁
          have frame := frame₁.trans frame₂
          simp only [taken, Option.bind_some, Buddy.take, halved, Option.map_some]
          refine ⟨_, rfl, sound₂.use, Or.inr ⟨x, ord + d, by omega, by rw [list]; exact List.mem_cons_self, ?_, ?_,
            frame.waitlist, frame.memBase, frame.minIdx, frame.maxIdx⟩⟩
          · rw [indexToPage, indexToPage, frame.memBase]
          · rw [frame.live]

theorem alloc (sound : b.Sound first none) (ord : Nat) :
    ∃ r, Buddy.alloc ord b = some r ∧ r.2.Sound first none ∧ Answers ord b r :=
  sound.allocFrom (orders - ord) 0 (by omega) fun o ge lt => absurd lt (by omega)

/-- The two checks of `coalesce` find the buddy on its list, or not at all. -/
theorem buddy_free_iff {o x : Nat} (sound : b.Sound first (some ⟨x, o⟩)) :
    x ^^^ 2 ^ o ∈ b.freelist o ↔
      b.isValid (x ^^^ 2 ^ o) = true ∧ (b.blk (x ^^^ 2 ^ o)).tag = .free ∧ (b.blk (x ^^^ 2 ^ o)).ord = o := by
  have mine : (⟨x, o⟩ : Chunk) ∈ b.chunks (some ⟨x, o⟩) := Or.inr rfl
  have aligned : (⟨x, o⟩ : Chunk).Aligned := sound.tiling.aligned _ mine
  constructor
  · intro member
    have inside := sound.tiling.inside _ (mem_free member)
    have pos := Nat.two_pow_pos o
    have low := sound.low
    obtain ⟨tag, order, -⟩ := sound.freeTag o _ member
    refine ⟨?_, tag, order⟩
    simp only [isValid, Bool.and_eq_true, decide_eq_true_eq]
    simp only at inside
    omega
  · rintro ⟨valid, tag, order⟩
    simp only [isValid, Bool.and_eq_true, decide_eq_true_eq] at valid
    by_cases below : x ^^^ 2 ^ o < first
    · rw [sound.reserved _ valid.1 below] at tag
      cases tag
    · obtain ⟨c, member, covers⟩ := sound.tiling.cover _ (Nat.not_lt.mp below) valid.2
      by_cases head : c.base = x ^^^ 2 ^ o
      · rcases member with (free | used) | hand
        · have free : c.base ∈ b.freelist c.order := free
          rw [head] at free
          rwa [← (sound.freeTag _ _ free).2.1, order] at free
        · have used : c.base ∈ b.used := used.1
          rw [head] at used
          rw [(sound.usedTag _ used).1] at tag
          cases tag
        · cases hand
          have := congrArg (x ^^^ ·) head
          have pos := Nat.two_pow_pos o
          simp at this
          omega
      · -- inside another block, where only an upper half has this order
        have inner : c.base < x ^^^ 2 ^ o := lt_of_le_of_ne covers.1 head
        have larger : o < c.order := by
          by_contra small
          have nested := Chunk.nested (sound.tiling.aligned c member) (Chunk.buddy_aligned aligned)
            (Nat.not_lt.mp small) covers (Chunk.covers_base _)
          exact absurd nested.1 (Nat.not_le.mpr inner)
        have whole := Chunk.covers_of_buddy aligned (sound.tiling.aligned c member) larger (Chunk.covers_base _) covers
        have same := sound.tiling.disjoint c member _ mine x whole (Chunk.covers_base _)
        rw [same] at larger
        exact absurd larger (lt_irrefl o)

theorem merge :
    ∀ (n : Nat) {o x : Nat} {b : Buddy cpus}, o + n = orders - 1 → b.Sound first (some ⟨x, o⟩) → (b.blk x).ord = o →
      ∃ r, Buddy.merge n o x b = some r ∧ Frame b r.2 ∧ ∃ o', r.2.Sound first (some ⟨r.1, o'⟩) ∧
        (r.2.blk r.1).ord = o' ∧ (o' + 1 < orders → r.1 ^^^ 2 ^ o' ∉ r.2.freelist o')
  | 0, o, x, b, last, sound, order =>
      ⟨(x, b), rfl, Frame.refl b, o, sound, order, fun room => absurd room (by omega)⟩
  | n + 1, o, x, b, last, sound, order => by
      have iff := sound.buddy_free_iff
      by_cases member : x ^^^ 2 ^ o ∈ b.freelist o
      · obtain ⟨valid, tag, order'⟩ := iff.mp member
        obtain ⟨b', taken, sound', ord', frame⟩ := sound.join order (by omega) member
        obtain ⟨r, rest, frame', final⟩ := merge n (by omega) sound' ord'
        refine ⟨r, ?_, frame.trans frame', final⟩
        have continues : ¬ ((b.blk (x ^^^ 2 ^ o)).tag ≠ .free ∨ (b.blk (x ^^^ 2 ^ o)).ord ≠ o) := by
          rw [tag, order']
          simp
        simp only [Buddy.merge, valid, Bool.not_true, Bool.false_eq_true, if_false, if_neg continues, taken,
          Option.bind_some]
        exact rest
      · refine ⟨(x, b), ?_, Frame.refl b, o, sound, order, fun _ => member⟩
        simp only [Buddy.merge]
        split
        · rfl
        · rename_i valid
          split
          · rfl
          · rename_i matches_
            rw [not_or, not_not, not_not] at matches_
            exact absurd (iff.mpr ⟨by simpa using valid, matches_⟩) member

/-- `coalesce` of a block that was live or waiting in `b` and is neither any more -/
theorem coalesce {m : Buddy cpus} {x : Nat} (sound : b.Sound first none) (member : x ∈ b.used)
    (bounds : m.minIdx = b.minIdx ∧ m.maxIdx = b.maxIdx) (lists : m.freelist = b.freelist)
    (self : m.blk x = { b.blk x with queued := false })
    (other : ∀ z, z ≠ x → m.blk z = b.blk z) (used : ∀ z, z ∈ m.used ↔ z ∈ b.used ∧ z ≠ x)
    (waiting : ∀ z, z ∈ m.waiting ↔ z ∈ b.waiting ∧ z ≠ x) (live : ∀ c ∈ m.live, c ∈ b.live ∧ c.base ≠ x)
    (nodup : m.used.Nodup) :
    ∃ b', Buddy.coalesce x m = some b' ∧ b'.Sound first none ∧ Frame m b' := by
  obtain ⟨tag, small⟩ := sound.usedTag x member
  have marked : (m.setBlk x fun k => { k with tag := .free }).Sound first (some ⟨x, (b.blk x).ord⟩) := by
    refine sound.release (x := x) member bounds lists ?_ ?_ used waiting live nodup
    · simp [blk_setBlk, self]
    · intro z ne
      simp [blk_setBlk, ne, other z ne]
  have order : ((m.setBlk x fun k => { k with tag := .free }).blk x).ord = (b.blk x).ord := by
    simp [blk_setBlk, self]
  obtain ⟨r, merged, frame, o', sound', ord', alone⟩ := merge (orders - 1 - (b.blk x).ord) (by omega) marked order
  obtain ⟨b', put, final, frame'⟩ := sound'.put ord' alone
  have tag₁ : (m.blk x).tag = .used := by rw [self]; exact tag
  refine ⟨b', ?_, final, (show Frame m r.2 from ⟨frame.memBase, frame.minIdx, frame.maxIdx, frame.waitlist,
    frame.live⟩).trans frame'⟩
  simp only [Buddy.coalesce, tag₁, if_true, order, merged, Option.bind_some, put]

/-- The page index of a live block passes the check of `free` and `wait`. -/
theorem live_index (sound : b.Sound first none) {c : Chunk} (live : c ∈ b.live) :
    b.pageToIndex (b.indexToPage c.base) = c.base ∧ b.isValid c.base = true ∧ c.base ∈ b.used := by
  have used : c.base ∈ b.used := List.mem_append_left _ (List.mem_map_of_mem live)
  have inside := sound.tiling.inside _ (mem_used used)
  have pos := Nat.two_pow_pos (b.blk c.base).ord
  have low := sound.low
  refine ⟨?_, ?_, used⟩
  · rw [pageToIndex, indexToPage, Nat.add_sub_cancel_left, Nat.mul_div_cancel _ (by decide)]
  · simp only [isValid, Bool.and_eq_true, decide_eq_true_eq]
    simp only at inside
    omega

theorem base_liveBut (b : Buddy cpus) (x : Nat) :
    (b.liveBut x).map Chunk.base = (b.live.map Chunk.base).filter (· != x) := by
  rw [liveBut, List.filter_map]
  rfl

theorem live_not_waiting (sound : b.Sound first none) {c : Chunk} (live : c ∈ b.live) : c.base ∉ b.waiting := by
  intro waiting
  exact (List.nodup_append.mp sound.nodupUsed).2.2 _ (List.mem_map_of_mem live) _ waiting rfl

theorem free (sound : b.Sound first none) {c : Chunk} (live : c ∈ b.live) :
    ∃ b', Buddy.free (b.indexToPage c.base) b = some b' ∧ b'.Sound first none ∧ b'.memBase = b.memBase ∧
      b'.minIdx = b.minIdx ∧ b'.maxIdx = b.maxIdx ∧ b'.live = b.liveBut c.base ∧ b'.waitlist = b.waitlist := by
  obtain ⟨index, valid, used⟩ := sound.live_index live
  have outside := sound.live_not_waiting live
  have off : (b.blk c.base).queued = false := by
    rw [← Bool.not_eq_true, sound.queued]
    rintro (⟨o, free⟩ | waiting)
    · exact sound.free_not_used free used
    · exact outside waiting
  have nodup := List.nodup_append.mp sound.nodupUsed
  obtain ⟨b', made, sound', frame⟩ := sound.coalesce (m := { b with live := b.liveBut c.base }) used ⟨rfl, rfl⟩ rfl
    (by cases h : b.blk c.base; rw [h] at off; simp only at off; rw [off]) (fun _ _ => rfl)
    (fun z => by
      show z ∈ (b.liveBut c.base).map Chunk.base ++ b.waiting ↔ z ∈ b.live.map Chunk.base ++ b.waiting ∧ _
      rw [base_liveBut, List.mem_append, List.mem_append, List.mem_filter, bne_iff_ne]
      constructor
      · rintro (⟨old, ne⟩ | waiting)
        · exact ⟨Or.inl old, ne⟩
        · exact ⟨Or.inr waiting, fun e => outside (e ▸ waiting)⟩
      · rintro ⟨old | waiting, ne⟩
        · exact Or.inl ⟨old, ne⟩
        · exact Or.inr waiting)
    (fun z => ⟨fun waiting => ⟨waiting, fun e => outside (e ▸ waiting)⟩, And.left⟩)
    (fun d member => by simpa [liveBut] using member)
    (by
      show ((b.liveBut c.base).map Chunk.base ++ b.waiting).Nodup
      rw [base_liveBut]
      refine List.nodup_append.mpr ⟨nodup.1.filter _, nodup.2.1, fun z member => ?_⟩
      exact nodup.2.2 z (List.mem_filter.mp member).1)
  refine ⟨b', ?_, sound', frame.memBase, frame.minIdx, frame.maxIdx, frame.live, frame.waitlist⟩
  rw [Buddy.free, index]
  simp only [valid, if_true]
  exact made

theorem perm_liveBut (sound : b.Sound first none) {c : Chunk} (live : c ∈ b.live) :
    (b.live.map Chunk.base).Perm (c.base :: (b.liveBut c.base).map Chunk.base) := by
  have nodup : (b.live.map Chunk.base).Nodup := (List.nodup_append.mp sound.nodupUsed).1
  rw [base_liveBut, ← nodup.erase_eq_filter]
  exact List.perm_cons_erase (List.mem_map_of_mem live)

theorem wait (sound : b.Sound first none) {c : Chunk} (live : c ∈ b.live) (cpu : Fin cpus) :
    ∃ b', Buddy.wait cpu (b.indexToPage c.base) b = some b' ∧ b'.Sound first none ∧ b'.memBase = b.memBase ∧
      b'.minIdx = b.minIdx ∧ b'.maxIdx = b.maxIdx ∧ b'.live = b.liveBut c.base ∧
      b'.waitlist = Function.update b.waitlist cpu (c.base :: b.waitlist cpu) := by
  obtain ⟨index, valid, used⟩ := sound.live_index live
  have outside := sound.live_not_waiting live
  have off : (b.blk c.base).queued = false := by
    rw [← Bool.not_eq_true, sound.queued]
    rintro (⟨o, free⟩ | waiting)
    · exact sound.free_not_used free used
    · exact outside waiting
  generalize made : ({ b.setBlk c.base fun k => { k with queued := true } with
      waitlist := Function.update b.waitlist cpu (c.base :: b.waitlist cpu)
      live := b.liveBut c.base } : Buddy cpus) = b'
  have lists : b'.freelist = b.freelist := by rw [← made]; rfl
  have bounds : b'.minIdx = b.minIdx ∧ b'.maxIdx = b.maxIdx := by rw [← made]; exact ⟨rfl, rfl⟩
  have same : SameBlocks b b' := sameBlocks_queue (x := c.base) (q := true) (by rw [← made])
  have waiting : b'.waiting.Perm (c.base :: b.waiting) := by
    have after := flatMap_update_perm id b.waitlist cpu (c.base :: b.waitlist cpu)
    have before := flatMap_perm id b.waitlist cpu
    rw [← made]
    exact after.trans (before.symm.cons c.base)
  have used' : b'.used.Perm b.used := by
    have rest : b'.live.map Chunk.base = (b.liveBut c.base).map Chunk.base := by rw [← made]
    unfold Buddy.used
    rw [rest]
    refine (waiting.append_left _).trans ?_
    exact List.perm_middle.trans ((sound.perm_liveBut live).symm.append_right _)
  have chunks : ∀ d, d ∈ b'.chunks none ↔ d ∈ b.chunks none := by
    intro d
    simp only [mem_chunks, lists, used'.mem_iff, same.ord]
  have result : Buddy.wait cpu (b.indexToPage c.base) b = some b' := by
    rw [Buddy.wait, index]
    simp only [valid, off, Bool.not_true, Bool.false_eq_true, if_false]
    rw [made]
  refine ⟨b', result, ⟨bounds.2 ▸ sound.tiling.congr chunks, ?_, ?_, ?_, fun _ none => (nomatch none), ?_, ?_, ?_, ?_, ?_, ?_, ?_⟩,
    by rw [← made]; rfl, bounds.1, bounds.2, by rw [← made], by rw [← made]⟩
  · intro o z free
    rw [same.tag, same.ord]
    exact sound.freeTag o z (lists ▸ free)
  · intro z member
    rw [same.tag, same.ord]
    exact sound.usedTag z (used'.mem_iff.mp member)
  · intro d member
    rw [same.ord]
    refine sound.liveOrd d ?_
    rw [← made] at member
    exact (List.mem_filter.mp member).1
  · intro d inside p low high
    rw [same.tag, same.ord]
    exact sound.interior d ((chunks d).mp inside) p low high
  · intro z
    rw [lists, waiting.mem_iff, List.mem_cons, ← made]
    by_cases here : z = c.base
    · simp [blk_setBlk, here]
    · simp [blk_setBlk, here, sound.queued z]
  · rw [lists]
    exact sound.nodupFree
  · exact used'.nodup_iff.mpr sound.nodupUsed
  · unfold freeChunks
    rw [lists]
    exact sound.coalesced
  · intro p low high
    rw [same.tag]
    exact sound.reserved p (bounds.1 ▸ low) high
  · rw [bounds.1]
    exact sound.low

theorem freeWaitLoop (cpu : Fin cpus) :
    ∀ (n : Nat) {b : Buddy cpus}, (b.waitlist cpu).length = n → b.Sound first none →
      ∃ b', Buddy.freeWaitLoop cpu n b = some b' ∧ b'.Sound first none ∧ b'.memBase = b.memBase ∧
        b'.minIdx = b.minIdx ∧ b'.maxIdx = b.maxIdx ∧ b'.live = b.live ∧
        b'.waitlist = Function.update b.waitlist cpu []
  | 0, b, length, sound => by
      refine ⟨b, rfl, sound, rfl, rfl, rfl, rfl, ?_⟩
      rw [← List.length_eq_zero_iff.mp length, Function.update_eq_self]
  | n + 1, b, length, sound => by
      cases list : b.waitlist cpu with
      | nil => rw [list] at length; cases length
      | cons x rest =>
          have before := flatMap_perm id b.waitlist cpu
          have after := flatMap_update_perm id b.waitlist cpu rest
          have member : x ∈ b.waiting :=
            List.mem_flatMap.mpr ⟨cpu, List.mem_finRange cpu, by rw [list]; exact List.mem_cons_self⟩
          have on : (b.blk x).queued = true := (sound.queued x).mpr (Or.inr member)
          generalize popped : ({ b.setBlk x fun k => { k with queued := false } with
              waitlist := Function.update b.waitlist cpu rest } : Buddy cpus) = b₁
          have dequeued : b.waitDequeue cpu x rest = some b₁ := by
            rw [waitDequeue, if_pos on, popped]
          -- the block leaves the wait list, and with it the used blocks
          have waiting : b.waiting.Perm (x :: b₁.waiting) := by
            rw [← popped]
            refine before.trans ?_
            show (b.waitlist cpu ++ _).Perm _
            rw [list]
            exact after.symm.cons x
          have live : b₁.live = b.live := by rw [← popped]; rfl
          have used : b.used.Perm (x :: b₁.used) := by
            unfold Buddy.used
            rw [live]
            exact (waiting.append_left _).trans List.perm_middle
          have nodup := List.nodup_cons.mp (used.nodup_iff.mp sound.nodupUsed)
          have mem_used₁ : ∀ z, z ∈ b₁.used ↔ z ∈ b.used ∧ z ≠ x := by
            intro z
            rw [used.mem_iff, List.mem_cons]
            constructor
            · intro old
              exact ⟨Or.inr old, fun e => nodup.1 (e ▸ old)⟩
            · rintro ⟨rfl | old, ne⟩
              · exact absurd rfl ne
              · exact old
          obtain ⟨b₂, made, sound₂, frame⟩ := sound.coalesce (m := b₁) (x := x) (List.mem_append_right _ member)
            (by rw [← popped]; exact ⟨rfl, rfl⟩) (by rw [← popped]; rfl) (by rw [← popped]; simp [blk_setBlk])
            (fun z ne => by rw [← popped]; simp [blk_setBlk, ne]) mem_used₁
            (fun z => by
              rw [waiting.mem_iff, List.mem_cons]
              constructor
              · intro old
                exact ⟨Or.inr old, fun e => nodup.1 (List.mem_append_right _ (e ▸ old))⟩
              · rintro ⟨rfl | old, ne⟩
                · exact absurd rfl ne
                · exact old)
            (fun c old => by
              rw [live] at old
              refine ⟨old, fun e => sound.live_not_waiting old (e ▸ member)⟩)
            nodup.2
          have list₂ : b₂.waitlist = Function.update b.waitlist cpu rest := by
            rw [frame.waitlist, ← popped]
          obtain ⟨b', loop, sound', base, min, max, live', waitlist⟩ := freeWaitLoop cpu n (b := b₂)
            (by rw [list₂, Function.update_self]; rw [list] at length; exact Nat.succ.inj length) sound₂
          refine ⟨b', ?_, sound', ?_, ?_, ?_, ?_, ?_⟩
          · simp only [Buddy.freeWaitLoop, list, dequeued, Option.bind_some, made, loop]
          · rw [base, frame.memBase, ← popped]; rfl
          · rw [min, frame.minIdx, ← popped]; rfl
          · rw [max, frame.maxIdx, ← popped]; rfl
          · rw [live', frame.live, live]
          · rw [waitlist, list₂, Function.update_idem]

theorem freeWait (sound : b.Sound first none) (cpu : Fin cpus) :
    ∃ b', Buddy.freeWait cpu b = some b' ∧ b'.Sound first none ∧ b'.memBase = b.memBase ∧
      b'.minIdx = b.minIdx ∧ b'.maxIdx = b.maxIdx ∧ b'.live = b.live ∧
      b'.waitlist = Function.update b.waitlist cpu [] :=
  freeWaitLoop cpu _ rfl sound

/-- The live blocks when one of them is gone -/
theorem liveBut_perm (sound : b.Sound first none) {c : Chunk} {rest : List Chunk} (all : b.live.Perm (c :: rest)) :
    (b.liveBut c.base).Perm rest := by
  have nodup : ((c :: rest).map Chunk.base).Nodup :=
    (all.map Chunk.base).nodup_iff.mp (List.nodup_append.mp sound.nodupUsed).1
  have others : rest.filter (fun d => d.base != c.base) = rest := by
    refine List.filter_eq_self.mpr fun d member => bne_iff_ne.mpr fun same => ?_
    exact (List.nodup_cons.mp nodup).1 (same ▸ List.mem_map_of_mem member)
  have filtered := all.filter fun d => d.base != c.base
  rw [List.filter_cons_of_neg (by simp), others] at filtered
  exact filtered

/-! ## Initialisation -/

end Sound

section Init

variable {kmemS kmemF kmemE : Nat}

/-- The first page of the pool -/
def poolStart (kmemS kmemF : Nat) : Nat := (kmemF - kmemS / 2 ^ 21 * 2 ^ 21) / pageBytes

theorem sound_layout (le : kmemS ≤ kmemF) :
    (layout kmemS kmemF kmemE : Buddy cpus).Sound (poolStart kmemS kmemF) none := by
  generalize made : (layout kmemS kmemF kmemE : Buddy cpus) = b
  have blk : ∀ x, b.blk x = ⟨0, .used, false⟩ := by intro x; rw [← made]; rfl
  have lists : ∀ o, b.freelist o = [] := by intro o; rw [← made]; rfl
  have waiting : b.waiting = [] := by
    rw [← made]
    simp [Buddy.waiting, layout]
  have used : b.used = List.range' (poolStart kmemS kmemF) (b.maxIdx - poolStart kmemS kmemF) := by
    have live : b.live.map Chunk.base = List.range' (poolStart kmemS kmemF) (b.maxIdx - poolStart kmemS kmemF) := by
      rw [← made]
      show (List.map _ _).map _ = _
      rw [List.map_map]
      exact List.map_id _
    unfold Buddy.used
    rw [live, waiting, List.append_nil]
  have mem_used : ∀ x, x ∈ b.used ↔ poolStart kmemS kmemF ≤ x ∧ x < b.maxIdx := by
    intro x
    rw [used, List.mem_range'_1]
    omega
  have chunks : ∀ c, c ∈ b.chunks none ↔ (poolStart kmemS kmemF ≤ c.base ∧ c.base < b.maxIdx) ∧ c.order = 0 := by
    intro c
    rw [mem_chunks, lists, mem_used, blk]
    simp [eq_comm]
  refine ⟨⟨?_, ?_, ?_, ?_⟩, ?_, ?_, ?_, fun _ none => (nomatch none), ?_, ?_, ?_, ?_, ?_, ?_, ?_⟩
  · intro c member
    rw [Chunk.Aligned, ((chunks c).mp member).2]
    exact one_dvd _
  · intro c member
    obtain ⟨⟨low, high⟩, order⟩ := (chunks c).mp member
    rw [order]
    exact ⟨low, by omega⟩
  · intro c hc d hd p inc ind
    have orders' : c.order = d.order := ((chunks c).mp hc).2.trans ((chunks d).mp hd).2.symm
    have one : ∀ e : Chunk, e ∈ b.chunks none → e.Aligned := by
      intro e member
      rw [Chunk.Aligned, ((chunks e).mp member).2]
      exact one_dvd _
    exact Chunk.eq_of_covers (one c hc) (one d hd) orders' inc ind
  · intro p low high
    exact ⟨⟨p, 0⟩, (chunks _).mpr ⟨⟨low, high⟩, rfl⟩, Chunk.covers_base _⟩
  · intro o x free
    rw [lists] at free
    cases free
  · intro x _
    rw [blk]
    exact ⟨rfl, by decide⟩
  · intro c live
    rw [blk]
    rw [← made] at live
    obtain ⟨x, -, rfl⟩ := List.mem_map.mp live
    rfl
  · intro c member p low high
    rw [((chunks c).mp member).2] at high
    omega
  · intro x
    rw [blk, waiting]
    simp [lists]
  · intro o
    rw [lists]
    exact List.nodup_nil
  · rw [used]
    exact List.nodup_range'
  · intro c free
    have free : c.base ∈ b.freelist c.order := free
    rw [lists] at free
    cases free
  · intro p _ _
    rw [blk]
  · rw [← made]
    exact Nat.div_le_div_right (Nat.sub_le_sub_right le _)

/-- The pages that are not freed yet -/
def pending (b : Buddy cpus) (j : Nat) : List Chunk := (List.range' j (b.maxIdx - j)).map fun x => ⟨x, 0⟩

theorem initLoop_spec {first : Nat} :
    ∀ (n : Nat) {j : Nat} {b : Buddy cpus}, b.maxIdx ≤ j + n → b.Sound first none → b.live = b.pending j →
      (∀ cpu, b.waitlist cpu = []) →
      ∃ b', initLoop n (b.indexToPage j) b = some b' ∧ b'.Sound first none ∧ b'.live = [] ∧
        (∀ cpu, b'.waitlist cpu = []) ∧ b'.memBase = b.memBase ∧ b'.maxIdx = b.maxIdx
  | 0, j, b, enough, sound, live, waits => by
      refine ⟨b, rfl, sound, ?_, waits, rfl, rfl⟩
      rw [live, pending, show b.maxIdx - j = 0 by omega]
      rfl
  | n + 1, j, b, enough, sound, live, waits => by
      by_cases more : j < b.maxIdx
      · have row : b.pending j = ⟨j, 0⟩ :: b.pending (j + 1) := by
          rw [pending, pending, show b.maxIdx - j = b.maxIdx - (j + 1) + 1 by omega, List.range'_succ, List.map_cons]
        have member : (⟨j, 0⟩ : Chunk) ∈ b.live := by rw [live, row]; exact List.mem_cons_self
        obtain ⟨b₁, freed, sound₁, base, -, max, live₁, waits₁⟩ := sound.free member
        have next : b₁.live = b₁.pending (j + 1) := by
          have kept : ∀ d ∈ b.pending (j + 1), d.base != j := by
            intro d inside
            obtain ⟨x, range, rfl⟩ := List.mem_map.mp inside
            have := (List.mem_range'_1.mp range).1
            exact bne_iff_ne.mpr (by show x ≠ j; omega)
          rw [live₁, liveBut, live, row, List.filter_cons_of_neg (by simp), List.filter_eq_self.mpr kept, pending,
            pending, max]
        obtain ⟨b', loop, sound', done, waits', base', max'⟩ := initLoop_spec n (j := j + 1) (b := b₁) (by omega) sound₁ next
          (fun cpu => by rw [waits₁]; exact waits cpu)
        refine ⟨b', ?_, sound', done, waits', base'.trans base, max'.trans max⟩
        have address : b.indexToPage j + pageBytes = b₁.indexToPage (j + 1) := by
          rw [indexToPage, indexToPage, base]
          ring
        have below : b.indexToPage j < b.indexToPage b.maxIdx := by
          unfold indexToPage
          have := Nat.mul_lt_mul_of_pos_right more (show 0 < pageBytes by decide)
          omega
        rw [initLoop, if_pos below, freed, Option.bind_some, address]
        exact loop
      · refine ⟨b, ?_, sound, ?_, waits, rfl, rfl⟩
        · have above : ¬ b.indexToPage j < b.indexToPage b.maxIdx := by
            unfold indexToPage
            have := Nat.mul_le_mul_right pageBytes (Nat.not_lt.mp more)
            omega
          rw [initLoop, if_neg above]
        · rw [live, pending, show b.maxIdx - j = 0 by omega]
          rfl

/-- **`init` succeeds**, and no block is in use afterwards. -/
theorem init_spec (le : kmemS ≤ kmemF) (aligned : kmemF % pageBytes = 0) :
    ∃ b : Buddy cpus, init kmemS kmemF kmemE = some b ∧ b.Sound (poolStart kmemS kmemF) none ∧ b.live = [] ∧
      (∀ cpu, b.waitlist cpu = []) ∧ 2 ^ 21 ∣ b.memBase := by
  have start : (layout kmemS kmemF kmemE : Buddy cpus).indexToPage (poolStart kmemS kmemF) = kmemF := by
    show kmemS / 2 ^ 21 * 2 ^ 21 + (kmemF - kmemS / 2 ^ 21 * 2 ^ 21) / 4096 * 4096 = kmemF
    change kmemF % 4096 = 0 at aligned
    omega
  obtain ⟨b, loop, sound, live, waits, base, -⟩ := initLoop_spec
    (layout kmemS kmemF kmemE : Buddy cpus).maxIdx (j := poolStart kmemS kmemF) (Nat.le_add_left _ _)
    (sound_layout le) rfl fun _ => rfl
  rw [start] at loop
  exact ⟨b, loop, sound, live, waits, by rw [base]; exact dvd_mul_left _ _⟩

end Init

/-! ## Runs -/

inductive Op (cpus : Nat) where
  | alloc (ord : Nat)
  | free (ptr : Nat)
  | wait (cpu : Fin cpus) (ptr : Nat)
  | freeWait (cpu : Fin cpus)

def attempt : Op cpus → Buddy cpus → Option (Buddy cpus)
  | .alloc ord, b => (b.alloc ord).map Prod.snd
  | .free ptr, b => b.free ptr
  | .wait cpu ptr, b => b.wait cpu ptr
  | .freeWait cpu, b => b.freeWait cpu

/-- Only live blocks are passed to `free` and `wait`. -/
def Allowed (b : Buddy cpus) : Op cpus → Prop
  | .free ptr => ∃ c ∈ b.live, ptr = b.indexToPage c.base
  | .wait _ ptr => ∃ c ∈ b.live, ptr = b.indexToPage c.base
  | _ => True

/-- The invariant of a run from an initialised pool -/
structure Running (first memBase maxIdx : Nat) (b : Buddy cpus) : Prop where
  sound : b.Sound first none
  base : b.memBase = memBase
  max : b.maxIdx = maxIdx

theorem Running.attempt {first memBase maxIdx : Nat} (b : Buddy cpus) (op : Op cpus)
    (running : Running first memBase maxIdx b) (allowed : b.Allowed op) :
    ∃ b', attempt op b = some b' ∧ Running first memBase maxIdx b' := by
  obtain ⟨sound, base, max⟩ := running
  cases op with
  | alloc ord =>
      obtain ⟨r, answer, sound', answers⟩ := sound.alloc ord
      refine ⟨r.2, by rw [Buddy.attempt, answer]; rfl, sound', ?_, ?_⟩
      · rcases answers with ⟨rfl, -⟩ | ⟨x, o, -, -, -, -, -, base', -⟩
        · exact base
        · exact base'.trans base
      · rcases answers with ⟨rfl, -⟩ | ⟨x, o, -, -, -, -, -, -, -, max'⟩
        · exact max
        · exact max'.trans max
  | free ptr =>
      obtain ⟨c, live, rfl⟩ := allowed
      obtain ⟨b', done, sound', base', -, max', -⟩ := sound.free live
      exact ⟨b', done, sound', base'.trans base, max'.trans max⟩
  | wait cpu ptr =>
      obtain ⟨c, live, rfl⟩ := allowed
      obtain ⟨b', done, sound', base', -, max', -⟩ := sound.wait live cpu
      exact ⟨b', done, sound', base'.trans base, max'.trans max⟩
  | freeWait cpu =>
      obtain ⟨b', done, sound', base', -, max', -⟩ := sound.freeWait cpu
      exact ⟨b', done, sound', base'.trans base, max'.trans max⟩

/-! ## The partition of the pool -/

/-- Where a block can be: on the free list of an order, live, or on a wait list -/
inductive Home (cpus : Nat) where
  | free (o x : Nat)
  | live (c : Chunk)
  | wait (cpu : Fin cpus) (x : Nat)

/-- The block is there. -/
def Home.On (b : Buddy cpus) : Home cpus → Prop
  | .free o x => x ∈ b.freelist o
  | .live c => c ∈ b.live
  | .wait cpu x => x ∈ b.waitlist cpu

/-- The pages of the block -/
def Home.chunk (b : Buddy cpus) : Home cpus → Chunk
  | .free o x => ⟨x, o⟩
  | .live c => c
  | .wait _ x => ⟨x, (b.blk x).ord⟩

structure Partitioned (b : Buddy cpus) (first : Nat) : Prop where
  /-- Every page of the pool lies in exactly one block. -/
  owner : ∀ p, first ≤ p → p < b.maxIdx → ∃! h : Home cpus, h.On b ∧ (h.chunk b).Covers p
  /-- Blocks are made of pages of the pool and naturally aligned. -/
  block : ∀ h : Home cpus, h.On b → (h.chunk b).Aligned ∧ first ≤ (h.chunk b).base ∧
    (h.chunk b).base + 2 ^ (h.chunk b).order ≤ b.maxIdx ∧ (h.chunk b).order < orders
  once : (∀ o, (b.freelist o).Nodup) ∧ b.live.Nodup ∧ ∀ cpu, (b.waitlist cpu).Nodup
  free : ∀ o x, x ∈ b.freelist o → (b.blk x).tag = .free ∧ (b.blk x).ord = o
  live : ∀ c ∈ b.live, (b.blk c.base).tag = .used ∧ (b.blk c.base).ord = c.order
  coalesced : ∀ o x, o + 1 < orders → x ∈ b.freelist o → x ^^^ 2 ^ o ∉ b.freelist o

namespace Sound

variable {b : Buddy cpus} {first : Nat}

theorem chunk_mem (sound : b.Sound first none) {h : Home cpus} (on : h.On b) : h.chunk b ∈ b.chunks none := by
  cases h with
  | free o x => exact mem_free on
  | live c =>
      exact Or.inl (Or.inr ⟨List.mem_append_left _ (List.mem_map_of_mem on), sound.liveOrd c on⟩)
  | wait cpu x => exact mem_used (List.mem_append_right _ (List.mem_flatMap.mpr ⟨cpu, List.mem_finRange cpu, on⟩))

theorem exists_home (sound : b.Sound first none) {c : Chunk} (member : c ∈ b.chunks none) :
    ∃ h : Home cpus, h.On b ∧ h.chunk b = c := by
  rcases member with (free | ⟨used, ord⟩) | none
  · exact ⟨.free c.order c.base, free, rfl⟩
  · rcases List.mem_append.mp used with live | waiting
    · obtain ⟨d, inside, base⟩ := List.mem_map.mp live
      refine ⟨.live d, inside, ?_⟩
      have order := sound.liveOrd d inside
      rw [base, ord] at order
      show d = c
      cases c
      cases d
      rw [Chunk.mk.injEq]
      exact ⟨base, order.symm⟩
    · obtain ⟨cpu, -, inside⟩ := List.mem_flatMap.mp waiting
      exact ⟨.wait cpu c.base, inside, by rw [Home.chunk, ord]⟩
  · cases none

theorem live_inj (sound : b.Sound first none) {c d : Chunk} (hc : c ∈ b.live) (hd : d ∈ b.live)
    (same : c.base = d.base) : c = d :=
  List.inj_on_of_nodup_map (List.nodup_append.mp sound.nodupUsed).1 hc hd same

theorem wait_inj (sound : b.Sound first none) {cpu cpu' : Fin cpus} {x : Nat} (h : x ∈ b.waitlist cpu)
    (h' : x ∈ b.waitlist cpu') : cpu = cpu' := by
  by_contra ne
  have nodup : b.waiting.Nodup := (List.nodup_append.mp sound.nodupUsed).2.1
  have : Std.Symm (Function.onFun List.Disjoint fun i => b.waitlist i) := ⟨fun _ _ d _ hi hj => d hj hi⟩
  exact (List.nodup_flatMap.mp nodup).2.forall (List.mem_finRange cpu) (List.mem_finRange cpu') ne h h'

theorem mem_waiting {cpu : Fin cpus} {x : Nat} (h : x ∈ b.waitlist cpu) : x ∈ b.waiting :=
  List.mem_flatMap.mpr ⟨cpu, List.mem_finRange cpu, h⟩

/-- A block is in one place. -/
theorem home_unique (sound : b.Sound first none) {h h' : Home cpus} (on : h.On b) (on' : h'.On b)
    (same : h.chunk b = h'.chunk b) : h = h' := by
  have base := congrArg Chunk.base same
  have order := congrArg Chunk.order same
  cases h with
  | free o x =>
      cases h' with
      | free o' x' =>
          obtain rfl : x = x' := base
          obtain rfl : o = o' := order
          rfl
      | live c =>
          obtain rfl : x = c.base := base
          exact absurd (List.mem_append_left _ (List.mem_map_of_mem on')) (sound.free_not_used on)
      | wait cpu x' =>
          obtain rfl : x = x' := base
          exact absurd (List.mem_append_right _ (mem_waiting on')) (sound.free_not_used on)
  | live c =>
      cases h' with
      | free o' x' =>
          obtain rfl : c.base = x' := base
          exact absurd (List.mem_append_left _ (List.mem_map_of_mem on)) (sound.free_not_used on')
      | live d => rw [sound.live_inj on on' base]
      | wait cpu x' =>
          obtain rfl : c.base = x' := base
          exact absurd (mem_waiting on') (sound.live_not_waiting on)
  | wait cpu x =>
      cases h' with
      | free o' x' =>
          obtain rfl : x = x' := base
          exact absurd (List.mem_append_right _ (mem_waiting on)) (sound.free_not_used on')
      | live d =>
          obtain rfl : x = d.base := base
          exact absurd (mem_waiting on) (sound.live_not_waiting on')
      | wait cpu' x' =>
          obtain rfl : x = x' := base
          rw [sound.wait_inj on on']

theorem partitioned (sound : b.Sound first none) : b.Partitioned first where
  owner := by
    intro p low high
    obtain ⟨c, member, covers⟩ := sound.tiling.cover p low high
    obtain ⟨h, on, chunk⟩ := sound.exists_home member
    refine ⟨h, ⟨on, chunk ▸ covers⟩, ?_⟩
    rintro h' ⟨on', covers'⟩
    refine sound.home_unique on' on ?_
    exact sound.tiling.disjoint _ (sound.chunk_mem on') _ (sound.chunk_mem on) p covers' (chunk ▸ covers)
  block := by
    intro h on
    have member := sound.chunk_mem on
    have inside := sound.tiling.inside _ member
    refine ⟨sound.tiling.aligned _ member, inside.1, inside.2, ?_⟩
    cases h with
    | free o x => exact (sound.freeTag o x on).2.2
    | live c =>
        have used : c.base ∈ b.used := List.mem_append_left _ (List.mem_map_of_mem on)
        have small := (sound.usedTag _ used).2
        rw [sound.liveOrd c on] at small
        exact small
    | wait cpu x => exact (sound.usedTag x (List.mem_append_right _ (mem_waiting on))).2
  once := by
    have nodup := List.nodup_append.mp sound.nodupUsed
    exact ⟨sound.nodupFree, List.Nodup.of_map _ nodup.1,
      fun cpu => (List.nodup_flatMap.mp nodup.2.1).1 cpu (List.mem_finRange cpu)⟩
  free := fun o x member => ⟨(sound.freeTag o x member).1, (sound.freeTag o x member).2.1⟩
  live := fun c member =>
    ⟨(sound.usedTag _ (List.mem_append_left _ (List.mem_map_of_mem member))).1, sound.liveOrd c member⟩
  coalesced := by
    intro o x room member
    exact sound.coalesced ⟨x, o⟩ member (Nat.lt_of_succ_lt_succ room)

end Sound

/-- What `alloc (ord)` returns in the state `b`: `nullptr` exactly if no free block is
large enough, and otherwise a new live block, which meets no live or waiting one. -/
def Serves (b : Buddy cpus) (first ord : Nat) (r : Option Nat × Buddy cpus) : Prop :=
  (r.1 = none ↔ ∀ o, ord ≤ o → b.freelist o = []) ∧
    ∀ ptr, r.1 = some ptr → ∃ x, ptr = b.indexToPage x ∧ r.2.live = ⟨x, ord⟩ :: b.live ∧
      2 ^ ord ∣ x ∧ 2 ^ ord * pageBytes ∣ ptr ∧ first ≤ x ∧ x + 2 ^ ord ≤ b.maxIdx ∧
      ∀ p, (⟨x, ord⟩ : Chunk).Covers p → (∀ c ∈ b.live, ¬ c.Covers p) ∧
        ∀ cpu, ∀ y ∈ b.waitlist cpu, ¬ (⟨y, (b.blk y).ord⟩ : Chunk).Covers p

theorem Sound.serves {b : Buddy cpus} {first : Nat} (sound : b.Sound first none) (base : 2 ^ 21 ∣ b.memBase) (ord : Nat) :
    ∃ r, b.alloc ord = some r ∧ b.Serves first ord r := by
  obtain ⟨r, answer, -, answers⟩ := sound.alloc ord
  refine ⟨r, answer, ?_⟩
  rcases answers with ⟨rfl, empty⟩ | ⟨x, o, ge, free, result, live, -⟩
  · exact ⟨⟨fun _ => empty, fun _ => rfl⟩, fun ptr none => (nomatch none)⟩
  · have member : (⟨x, o⟩ : Chunk) ∈ b.chunks none := mem_free free
    have aligned : 2 ^ ord ∣ x := dvd_trans (Nat.pow_dvd_pow 2 ge) (sound.tiling.aligned _ member)
    have inside := sound.tiling.inside _ member
    have width : 2 ^ ord ≤ 2 ^ o := Nat.pow_le_pow_right (by decide) ge
    refine ⟨⟨fun none => ?_, fun empty => ?_⟩, fun ptr some => ?_⟩
    · rw [result] at none
      cases none
    · rw [empty o ge] at free
      cases free
    · obtain rfl := Option.some.inj (result.symm.trans some)
      refine ⟨x, rfl, live, aligned, ?_, inside.1, by have := inside.2; simp only at this; omega, fun p covers => ?_⟩
      · -- the pool starts at a multiple of the largest block
        have small : ord < 10 := lt_of_le_of_lt ge (sound.freeTag o x free).2.2
        have unit : 2 ^ ord * pageBytes ∣ 2 ^ 21 := by
          have pages : pageBytes = 2 ^ 12 := rfl
          rw [pages, ← Nat.pow_add]
          exact Nat.pow_dvd_pow 2 (by omega)
        exact Nat.dvd_add (dvd_trans unit base) (Nat.mul_dvd_mul aligned (dvd_refl _))
      · have within : (⟨x, o⟩ : Chunk).Covers p := ⟨covers.1, lt_of_lt_of_le covers.2 (Nat.add_le_add_left width x)⟩
        have apart : ∀ h : Home cpus, h.On b → (h.chunk b).Covers p → h = .free o x := fun h on inh =>
          sound.home_unique on (show (Home.free o x).On b from free) (sound.tiling.disjoint _ (sound.chunk_mem on) _ member p inh within)
        exact ⟨fun c on inc => (nomatch apart (.live c) on inc), fun cpu y on iny => (nomatch apart (.wait cpu y) on iny)⟩

/-- What becomes of a live block that is given back: it is no longer live, and with `wait` it is on the list of
the CPU until `freeWait` empties that list. -/
structure TakesBack (b : Buddy cpus) : Prop where
  free : ∀ c ∈ b.live, ∃ b', Buddy.free (b.indexToPage c.base) b = some b' ∧
    (∀ d, d ∈ b'.live ↔ d ∈ b.live ∧ d ≠ c) ∧ b'.waitlist = b.waitlist
  wait : ∀ cpu, ∀ c ∈ b.live, ∃ b', Buddy.wait cpu (b.indexToPage c.base) b = some b' ∧
    (∀ d, d ∈ b'.live ↔ d ∈ b.live ∧ d ≠ c) ∧
      b'.waitlist = Function.update b.waitlist cpu (c.base :: b.waitlist cpu)
  freeWait : ∀ cpu, ∃ b', Buddy.freeWait cpu b = some b' ∧ b'.live = b.live ∧
    b'.waitlist = Function.update b.waitlist cpu []

theorem Sound.mem_liveBut {b : Buddy cpus} {first : Nat} (sound : b.Sound first none) {c : Chunk} (live : c ∈ b.live)
    (d : Chunk) : d ∈ b.liveBut c.base ↔ d ∈ b.live ∧ d ≠ c := by
  rw [liveBut, List.mem_filter, bne_iff_ne]
  exact and_congr_right fun inside => not_congr ⟨fun same => sound.live_inj inside live same, fun same => congrArg _ same⟩

theorem Sound.takesBack {b : Buddy cpus} {first : Nat} (sound : b.Sound first none) : b.TakesBack where
  free := by
    intro c live
    obtain ⟨b', done, -, -, -, -, rest, lists⟩ := sound.free live
    exact ⟨b', done, rest ▸ sound.mem_liveBut live, lists⟩
  wait := by
    intro cpu c live
    obtain ⟨b', done, -, -, -, -, rest, lists⟩ := sound.wait live cpu
    exact ⟨b', done, rest ▸ sound.mem_liveBut live, lists⟩
  freeWait := by
    intro cpu
    obtain ⟨b', done, -, -, -, -, live, lists⟩ := sound.freeWait cpu
    exact ⟨b', done, live, lists⟩

/-- **The pages of the pool are partitioned into free, live and waiting blocks**, after
`init` and in every state of every run in which only live blocks are given back; no
assertion fails on the way, `alloc` serves every request that a free block allows, and a
block that is given back is no longer live. -/
theorem pool_partitioned {cpus : Nat} (kmemS kmemF kmemE : Nat) (le : kmemS ≤ kmemF) (aligned : kmemF % pageBytes = 0) :
    ∃ b₀ : Buddy cpus, init kmemS kmemF kmemE = some b₀ ∧
      ∀ ops, Legal attempt Allowed b₀ ops → ∃ b, runs attempt b₀ ops = some b ∧
        b.Partitioned (poolStart kmemS kmemF) ∧
        (∀ ord, ∃ r, b.alloc ord = some r ∧ b.Serves (poolStart kmemS kmemF) ord r) ∧ b.TakesBack := by
  obtain ⟨b₀, made, sound, -, -, base⟩ := @init_spec cpus kmemS kmemF kmemE le aligned
  refine ⟨b₀, made, fun ops legal => ?_⟩
  obtain ⟨b, done, running⟩ := Legal.safe (@Running.attempt _ _ b₀.memBase b₀.maxIdx) ops b₀
    ⟨sound, rfl, rfl⟩ legal
  exact ⟨b, done, running.sound.partitioned, running.sound.serves (running.base ▸ base), running.sound.takesBack⟩

/-- A pool of four pages: the block of order 2 is handed out and given back. -/
theorem pool_partitioned_four_pages :
    ∃ b : Buddy 1, (init 0 0 16480).bind (fun b => runs attempt b [.alloc 2, .free 0, .freeWait 0]) = some b ∧
      b.Partitioned 0 := by
  obtain ⟨b₀, made, all⟩ := @pool_partitioned 1 0 0 16480 (by decide) (by decide)
  have live : ((init 0 0 16480 : Option (Buddy 1)).bind (attempt (.alloc 2))).map (fun b => (b.live, b.memBase)) =
      some ([⟨0, 2⟩], 0) := by decide
  rw [made, Option.bind_some] at live
  have legal : Legal attempt Allowed b₀ [.alloc 2, .free 0, .freeWait 0] := by
    refine ⟨trivial, fun b₁ first => ⟨?_, fun b₂ second => ⟨trivial, fun _ _ => trivial⟩⟩⟩
    rw [first] at live
    obtain ⟨blocks, base⟩ := Prod.mk.inj (Option.some.inj live)
    exact ⟨⟨0, 2⟩, by rw [blocks]; exact List.mem_cons_self, by rw [indexToPage, base]; rfl⟩
  obtain ⟨b, done, partition, -⟩ := all _ legal
  exact ⟨b, by rw [made]; exact done, partition⟩

/-! ## The free blocks depend on the used ones only -/

theorem Sound.freeChunks_eq {b b' : Buddy cpus} {first : Nat} (sound : b.Sound first none) (sound' : b'.Sound first none)
    (max : b'.maxIdx = b.maxIdx) (same : b'.usedChunks = b.usedChunks) : b'.freeChunks = b.freeChunks := by
  have tiles : ∀ {b : Buddy cpus}, b.Sound first none → Tiling (b.freeChunks ∪ b.usedChunks) first b.maxIdx :=
    fun s => s.tiling.congr fun c => ⟨fun member => Or.inl member, fun member => member.elim id fun none => nomatch none⟩
  have apart : ∀ {b : Buddy cpus}, b.Sound first none → ∀ c ∈ b.freeChunks, c ∉ b.usedChunks :=
    fun s c free used => s.free_not_used free used.1
  have bounded : ∀ {b : Buddy cpus}, b.Sound first none → ∀ c ∈ b.freeChunks, c.order ≤ orders - 1 :=
    fun s c free => Nat.le_sub_one_of_lt (s.freeTag c.order c.base free).2.2
  ext c
  rw [mem_free_iff (tiles sound) (apart sound) sound.coalesced (bounded sound),
    mem_free_iff (tiles sound') (apart sound') sound'.coalesced (bounded sound'), max, same]

theorem usedChunks_empty {b : Buddy cpus} (live : b.live = []) (waits : ∀ cpu, b.waitlist cpu = []) :
    b.usedChunks = ∅ := by
  have used : b.used = [] := by
    simp [Buddy.used, Buddy.waiting, live, waits]
  ext c
  constructor
  · intro member
    have : c.base ∈ b.used := member.1
    rw [used] at this
    cases this
  · intro none
    cases none

/-- How a live block is given back: at once, or through the wait list of a CPU -/
def giveBack (b : Buddy cpus) (how : Chunk → Option (Fin cpus)) (c : Chunk) : Op cpus :=
  match how c with
  | none => .free (b.indexToPage c.base)
  | some cpu => .wait cpu (b.indexToPage c.base)

/-- Giving back all live blocks, in any order -/
theorem giveBack_all {first memBase maxIdx : Nat} (how : Chunk → Option (Fin cpus)) :
    ∀ (order : List Chunk) {b₁ b : Buddy cpus}, b₁.memBase = memBase → Running first memBase maxIdx b →
      b.live.Perm order → Legal attempt Allowed b (order.map (b₁.giveBack how)) ∧
        ∃ b', runs attempt b (order.map (b₁.giveBack how)) = some b' ∧ Running first memBase maxIdx b' ∧ b'.live = []
  | [], b₁, b, _, running, all => ⟨trivial, b, rfl, running, all.eq_nil⟩
  | c :: rest, b₁, b, base, running, all => by
      have member : c ∈ b.live := all.mem_iff.mpr List.mem_cons_self
      have page : b₁.indexToPage c.base = b.indexToPage c.base := by
        rw [indexToPage, indexToPage, base, running.base]
      have step : b.Allowed (b₁.giveBack how c) ∧ ∃ b', attempt (b₁.giveBack how c) b = some b' ∧
          Running first memBase maxIdx b' ∧ b'.live = b.liveBut c.base := by
        unfold giveBack
        rw [page]
        cases how c with
        | none =>
            obtain ⟨b', done, sound', base', -, max', live, -⟩ := running.sound.free member
            exact ⟨⟨c, member, rfl⟩, b', done, ⟨sound', base'.trans running.base, max'.trans running.max⟩, live⟩
        | some cpu =>
            obtain ⟨b', done, sound', base', -, max', live, -⟩ := running.sound.wait member cpu
            exact ⟨⟨c, member, rfl⟩, b', done, ⟨sound', base'.trans running.base, max'.trans running.max⟩, live⟩
      obtain ⟨allowed, b', done, running', live⟩ := step
      have fewer : b'.live.Perm rest := live ▸ running.sound.liveBut_perm all
      obtain ⟨legal, last, runs', final⟩ := giveBack_all how rest base running' fewer
      refine ⟨⟨allowed, fun b'' done' => ?_⟩, last, ?_, final⟩
      · obtain rfl := Option.some.inj (done.symm.trans done')
        exact legal
      · rw [List.map_cons, runs, done, Option.bind_some, runs']

/-- `free_wait` on every CPU -/
theorem freeWait_all {first memBase maxIdx : Nat} :
    ∀ (cpuList : List (Fin cpus)) {b : Buddy cpus}, Running first memBase maxIdx b →
      Legal attempt Allowed b (cpuList.map Op.freeWait) ∧
        ∃ b', runs attempt b (cpuList.map Op.freeWait) = some b' ∧ Running first memBase maxIdx b' ∧
          b'.live = b.live ∧ ∀ cpu, (cpu ∈ cpuList ∨ b.waitlist cpu = []) → b'.waitlist cpu = []
  | [], b, running => ⟨trivial, b, rfl, running, rfl, fun cpu empty => empty.elim (fun h => nomatch h) id⟩
  | cpu :: rest, b, running => by
      obtain ⟨b', done, sound', base', -, max', live, waits⟩ := running.sound.freeWait cpu
      obtain ⟨legal, last, runs', running', live', waits'⟩ := freeWait_all rest
        (b := b') ⟨sound', base'.trans running.base, max'.trans running.max⟩
      refine ⟨⟨trivial, fun b'' done' => ?_⟩, last, ?_, running', live'.trans live, fun cpu' empty => waits' cpu' ?_⟩
      · obtain rfl := Option.some.inj ((show b.freeWait cpu = some b'' from done').symm.trans done)
        exact legal
      · rw [List.map_cons, runs]
        show (b.freeWait cpu).bind _ = _
        rw [done, Option.bind_some, runs']
      · by_cases here : cpu' = cpu
        · subst here
          exact Or.inr (by rw [waits, Function.update_self])
        · rcases empty with member | nil
          · exact Or.inl ((List.mem_cons.mp member).resolve_left here)
          · exact Or.inr (by rw [waits, Function.update_of_ne here]; exact nil)

/-- **The set of free blocks is a function of the set of live and waiting blocks**: any two
runs from the same initial pool that agree on these agree on the free blocks.  So a run
that ends with no block in use ends with the initial free blocks; and such an end is
reached from everywhere by giving back the live blocks in any order, each at once or
through a wait list. -/
theorem free_determined {cpus : Nat} (kmemS kmemF kmemE : Nat) (le : kmemS ≤ kmemF) (aligned : kmemF % pageBytes = 0) :
    ∃ b₀ : Buddy cpus, init kmemS kmemF kmemE = some b₀ ∧
      ∀ ops, Legal attempt Allowed b₀ ops → ∃ b, runs attempt b₀ ops = some b ∧
        (∀ ops', Legal attempt Allowed b₀ ops' → ∃ b', runs attempt b₀ ops' = some b' ∧
          (b'.usedChunks = b.usedChunks → b'.freeChunks = b.freeChunks)) ∧
        (b.live = [] → (∀ cpu, b.waitlist cpu = []) → b.freeChunks = b₀.freeChunks) ∧
        ∀ order how, b.live.Perm order →
          let back := order.map (b.giveBack how) ++ (List.finRange cpus).map Op.freeWait
          Legal attempt Allowed b back ∧ ∃ b', runs attempt b back = some b' ∧ b'.freeChunks = b₀.freeChunks := by
  obtain ⟨b₀, made, sound₀, live₀, waits₀, -⟩ := @init_spec cpus kmemS kmemF kmemE le aligned
  have reach := fun ops legal => Legal.safe (@Running.attempt _ (poolStart kmemS kmemF) b₀.memBase b₀.maxIdx) ops b₀
    ⟨sound₀, rfl, rfl⟩ legal
  have idle : ∀ {b : Buddy cpus}, Running (poolStart kmemS kmemF) b₀.memBase b₀.maxIdx b → b.live = [] →
      (∀ cpu, b.waitlist cpu = []) → b.freeChunks = b₀.freeChunks := by
    intro b running live waits
    refine sound₀.freeChunks_eq running.sound running.max ?_
    rw [usedChunks_empty live waits, usedChunks_empty live₀ waits₀]
  refine ⟨b₀, made, fun ops legal => ?_⟩
  obtain ⟨b, done, running⟩ := reach ops legal
  refine ⟨b, done, fun ops' legal' => ?_, idle running, fun order how all => ?_⟩
  · obtain ⟨b', done', running'⟩ := reach ops' legal'
    exact ⟨b', done', running.sound.freeChunks_eq running'.sound (running'.max.trans running.max.symm)⟩
  · obtain ⟨legal₁, b₁, done₁, running₁, live₁⟩ := giveBack_all how order running.base running all
    obtain ⟨legal₂, b₂, done₂, running₂, live₂, waits₂⟩ := freeWait_all (List.finRange cpus) running₁
    refine ⟨legal₁.append done₁ legal₂, b₂, ?_, idle running₂ (live₂.trans live₁) fun cpu =>
      waits₂ cpu (Or.inl (List.mem_finRange cpu))⟩
    rw [runs_append, done₁, Option.bind_some, done₂]

/-- Two blocks of a pool of four pages, given back through the two ways -/
theorem free_determined_four_pages :
    ∃ b₀ b : Buddy 1, init 0 0 16480 = some b₀ ∧
      runs attempt b₀ [.alloc 0, .alloc 1, .wait 0 0, .free 8192, .freeWait 0] = some b ∧
      b.freeChunks = b₀.freeChunks := by
  obtain ⟨b₀, made, all⟩ := @free_determined 1 0 0 16480 (by decide) (by decide)
  obtain ⟨b, done, -, -, back⟩ := all [.alloc 0, .alloc 1] ⟨trivial, fun _ _ => ⟨trivial, fun _ _ => trivial⟩⟩
  have live : ((init 0 0 16480 : Option (Buddy 1)).bind fun b => runs attempt b [.alloc 0, .alloc 1]).map
      (fun b => (b.live, b.memBase)) = some ([⟨2, 1⟩, ⟨0, 0⟩], 0) := by decide
  rw [made, Option.bind_some, done] at live
  obtain ⟨blocks, base⟩ := Prod.mk.inj (Option.some.inj live)
  obtain ⟨-, b', done', same⟩ := back [⟨0, 0⟩, ⟨2, 1⟩] (fun c => if c.base = 0 then some 0 else none)
    (by rw [blocks]; exact List.Perm.swap _ _ _)
  refine ⟨b₀, b', made, ?_, same⟩
  have first : b.giveBack (fun c => if c.base = 0 then some 0 else none) ⟨0, 0⟩ = .wait 0 0 := by
    simp [giveBack, indexToPage, base]
  have second : b.giveBack (fun c => if c.base = 0 then some 0 else none) ⟨2, 1⟩ = .free 8192 := by
    simp [giveBack, indexToPage, base, pageBytes]
  rw [List.map_cons, List.map_cons, List.map_nil, first, second] at done'
  show runs attempt b₀ ([.alloc 0, .alloc 1] ++ [.wait 0 0, .free 8192, .freeWait 0]) = some b'
  rw [runs_append, done, Option.bind_some]
  exact done'

end Buddy

end Nova.Kernel
