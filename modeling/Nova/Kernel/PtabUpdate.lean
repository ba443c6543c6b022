/-
# Nova.Kernel.PtabUpdate — an update writes its range and nothing else

`exchange` is the other kind of step next to the links of a walk; the section
about it says what it does to the tree, to the invariant and to a search.  From
there `replace_spec` (the inner loop), `chunk_spec` (one round of the outer loop)
and `updateLoop_spec` follow by induction.

Addresses are grouped into blocks: `block l x` is the number of the block of
level `l` that `x` lies in, and inside the address width two addresses select the
same slot of level `l` exactly if their blocks agree (`sameSlot_iff`).

`update_spec` is the contract for the orders that the code handles:
the range translates to the new frames, the rest as before.
-/
import Nova.Kernel.PtabWalk

namespace Nova.Kernel

open Nova.Theory.Words
open Nova.Theory.Radix

set_option autoImplicit false

namespace Pagetable

variable {T : Pagetable}

/-! ## Exchanging one entry -/

/-- An entry that `update` may write into a slot of level `l`. -/
def Writable (T : Pagetable) (l : Nat) (e : Word) : Prop := e = 0#64 ∨ T.format.GoodLeaf l e

@[simp] theorem exchange_mem (l : Nat) (r : Slot Word entries) (e : Word) (s : State) :
    (T.exchange l r e s).mem = (s.store r e).mem := by
  simp only [exchange]
  split <;> rfl

@[simp] theorem exchange_live (l : Nat) (r : Slot Word entries) (e : Word) (s : State) :
    (T.exchange l r e s).live = s.live := by
  simp only [exchange]
  split <;> rfl

theorem Writable.bare {l : Nat} {e : Word} (writable : T.Writable l e) (p : Word) :
    T.format.kind l e ≠ .table p := by
  rcases writable with rfl | good
  · rw [Format.kind_zero]; exact fun h => by cases h
  · rw [good.leaf]; exact fun h => by cases h

/-- The entry as a tree. -/
def entryTree (e : Word) : Tree Word Word entries := if e = 0#64 then .hole else .leaf e

theorem entryTree_pages (e : Word) : (entryTree e).pages = [] := by
  unfold entryTree
  split <;> rfl

/-- Deallocation gives up tables of the subtree only. -/
theorem deallocate_subset (mem : Memory Word Word entries) :
    ∀ (l : Nat) (w page : Word), T.format.kind (l + 1) w = .table page →
      ∀ p ∈ T.deallocate mem l page, p ∈ (treeOf T.format.kind mem (l + 1) w).pages
  | 0, w, page, table, p, member => by
      rw [deallocate] at member
      exact absurd member List.not_mem_nil
  | l + 1, w, page, table, p, member => by
      rw [treeOf_table mem table, Tree.pages]
      rw [deallocate] at member
      rcases List.mem_append.mp member with below | self
      · obtain ⟨i, hi, given⟩ := List.mem_flatMap.mp below
        refine List.mem_cons_of_mem _ (List.mem_flatMap.mpr ⟨i, hi, ?_⟩)
        split at given
        · exact absurd given List.not_mem_nil
        · rename_i ne
          split at given
          · rename_i isTable
            exact deallocate_subset mem l _ _
              (Format.kind_table_iff.mpr ⟨ne, isTable, rfl⟩) p given
          · exact absurd given List.not_mem_nil
      · exact List.mem_singleton.mp self ▸ List.mem_cons_self

section Exchange

variable {s : State} (wf : T.WF s) {v : Word} {l : Nat} {r : Slot Word entries}
  (slot : T.slotAt s v l = some r) {e : Word} (writable : T.Writable l e)

include wf slot writable

theorem tree_exchange : T.tree (T.exchange l r e s) =
    Tree.modify (slotIndex v) l (entryTree e) T.format.lev (T.tree s) := by
  have same : T.tree (T.exchange l r e s) = T.tree (s.store r e) := by
    simp [tree, State.load]
  rw [same, tree_store wf.nodup wf.root_apart slot e, treeOf_bare l writable.bare]
  rfl

theorem pages_exchange : ∃ rest,
    (T.tree s).pages.Perm ((treeOf T.format.kind s.mem l (s.load r)).pages ++ rest) ∧
      (T.tree (T.exchange l r e s)).pages.Perm rest := by
  obtain ⟨rest, before, after⟩ := Tree.pages_modify (slotIndex v) l _ _ (reaches_slot slot)
  rw [subAt_slot slot] at before
  refine ⟨rest, before, ?_⟩
  rw [tree_exchange wf slot writable]
  exact (after _).trans (by rw [entryTree_pages]; rfl)

theorem exact_exchange (stable : e ≠ 0#64 → T.format.StableLeaf l e) (exact_ : T.Exact s) :
    T.Exact (T.exchange l r e s) := by
  unfold Exact
  rw [tree_exchange wf slot writable]
  refine Tree.allLeaves_modify _ _ ?_ _ _ exact_
  unfold entryTree
  split
  · trivial
  · exact stable ‹_›

omit writable slot wf in
theorem load_exchange (q : Slot Word entries) :
    (T.exchange l r e s).load q = if q = r then e else s.load q := by
  unfold State.load
  rw [exchange_mem]
  split
  · rename_i same
    rw [same]
    exact write_self _ _ _
  · rename_i other
    exact write_ne _ _ _ other

theorem wf_exchange (lawful : T.format.Lawful) : T.WF (T.exchange l r e s) := by
  obtain ⟨rest, before, after⟩ := pages_exchange wf slot writable
  have subset : ∀ page ∈ (T.tree (T.exchange l r e s)).pages, page ∈ (T.tree s).pages :=
    fun page member => before.mem_iff.mpr (List.mem_append_right _ (after.mem_iff.mp member))
  refine ⟨?_, ?_, ?_, fun member => wf.root_apart (subset _ member), ?_, ?_⟩
  · exact after.nodup_iff.mpr ((before.nodup_iff.mp wf.nodup).of_append_right)
  · intro page member
    rw [exchange_live]
    exact wf.owned page (subset page member)
  · rw [exchange_live]
    exact wf.root_live
  · rw [tree_exchange wf slot writable]
    refine Tree.allLeaves_modify _ _ ?_ _ _ wf.leaves
    rcases writable with rfl | good
    · simp [entryTree, Tree.AllLeaves]
    · rw [entryTree, if_neg (Format.kind_leaf_iff.mp good.leaf).1]
      exact good
  · rw [load_exchange]
    split
    · rename_i same
      rcases slotAt_owner slot with ⟨rfl, -⟩ | ⟨-, member⟩
      · rcases writable with rfl | good
        · exact lawful.root_large
        · exact absurd good.level (lt_irrefl _)
      · exact absurd (same ▸ member) wf.root_apart
    · exact wf.root_small

theorem slotAt_exchange {u : Word} {m : Nat} (above : l ≤ m) {q : Slot Word entries}
    (other : T.slotAt s u m = some q) : T.slotAt (T.exchange l r e s) u m = some q := by
  rw [slotAt_eq_slot] at other ⊢
  rw [tree_exchange wf slot writable]
  exact Tree.slot_modify_above _ above _ _ _ other

omit writable in
/-- The slot itself is not in the subtree that hangs in it. -/
theorem old_subtree : treeOf T.format.kind (s.store r e).mem l (s.load r) =
    treeOf T.format.kind s.mem l (s.load r) := by
  obtain ⟨rest, before, after⟩ := pages_exchange wf slot (e := 0#64) (Or.inl rfl)
  have apart := List.disjoint_of_nodup_append (before.nodup_iff.mp wf.nodup)
  refine treeOf_congr l _ fun page member => write_page_ne _ _ _ fun same => ?_
  have slot' := slotAt_exchange wf slot (e := 0#64) (Or.inl rfl) (le_refl l) slot
  rcases slotAt_owner slot' with ⟨-, rfl⟩ | ⟨-, inTree⟩
  · exact wf.root_apart (same ▸ before.mem_iff.mpr (List.mem_append_left _ member))
  · exact apart member (same ▸ after.mem_iff.mp inTree)

/-- What an exchange gives up belongs to the old subtree. -/
theorem exchange_pending : ∀ page ∈ (T.exchange l r e s).pending,
    page ∈ s.pending ∨ page ∈ (treeOf T.format.kind s.mem l (s.load r)).pages := by
  intro page member
  unfold exchange at member
  dsimp only at member
  split at member
  · rename_i table
    cases l with
    | zero =>
        rw [Nat.zero_sub, deallocate] at member
        exact Or.inl member
    | succ k =>
        rcases List.mem_append.mp member with given | waiting
        · right
          rw [← old_subtree wf slot (e := e)]
          exact deallocate_subset _ k _ _
            (Format.kind_table_iff.mpr ⟨table.1, table.2, rfl⟩) page given
        · exact Or.inl waiting
  · exact Or.inl member

theorem frames_exchange : T.Frames s (T.exchange l r e s) := by
  obtain ⟨rest, before, after⟩ := pages_exchange wf slot writable
  refine ⟨fun page live => by rwa [exchange_live], fun page member => Or.inl ?_,
    fun q live out ne => ?_, fun page member => ?_⟩
  · exact before.mem_iff.mpr (List.mem_append_right _ (after.mem_iff.mp member))
  · rw [load_exchange, if_neg]
    rintro rfl
    rcases slotAt_owner slot with ⟨-, rfl⟩ | ⟨-, member⟩
    · exact ne rfl
    · exact out member
  · rcases exchange_pending wf slot writable page member with waiting | old
    · exact Or.inl waiting
    · have inTree := before.mem_iff.mpr (List.mem_append_left _ old)
      refine Or.inr ⟨?_, fun again => ?_, Or.inl inTree⟩
      · rw [exchange_live]
        exact wf.owned page inTree
      · exact List.disjoint_of_nodup_append (before.nodup_iff.mp wf.nodup) old
          (after.mem_iff.mp again)

end Exchange

/-! ## Blocks of addresses -/

/-- The block of level `l` that an address lies in. -/
def block (l : Nat) (x : Word) : Nat := x.toNat / 2 ^ (l * bpl + pageBits)

/-- The input address width. -/
def Inside (T : Pagetable) (x : Word) : Prop := x.toNat < 2 ^ (T.format.lev * bpl + pageBits)

theorem pow_block (l : Nat) : 2 ^ (l * bpl + pageBits) = 2 ^ pageBits * entries ^ l := by
  rw [show (entries : Nat) = 2 ^ bpl from rfl, ← Nat.pow_mul, ← Nat.pow_add]
  congr 1
  rw [Nat.mul_comm bpl l, Nat.add_comm]

theorem block_eq (l : Nat) (x : Word) : block l x = x.toNat / 2 ^ pageBits / entries ^ l := by
  rw [block, pow_block, Nat.div_div_eq_div_mul]

theorem block_add (l d : Nat) (x : Word) : block (l + d) x = block l x / entries ^ d := by
  rw [block_eq, block_eq, Nat.div_div_eq_div_mul _ (entries ^ l), Nat.pow_add]

theorem slotIndex_eq_block (x : Word) (l : Nat) : (slotIndex x l : Nat) = block l x % entries :=
  toNat_slotIndex x l

theorem Inside.block_lt {x : Word} (inside : T.Inside x) {l : Nat} (hl : l ≤ T.format.lev) :
    block l x < entries ^ (T.format.lev - l) := by
  rw [block, Nat.div_lt_iff_lt_mul (Nat.two_pow_pos _)]
  refine lt_of_lt_of_eq inside ?_
  rw [pow_block, pow_block, Nat.mul_comm (entries ^ _), Nat.mul_assoc, ← Nat.pow_add]
  congr 2
  omega

theorem sameSlot_iff {l : Nat} (hl : l ≤ T.format.lev) {x v : Word} (hx : T.Inside x)
    (hv : T.Inside v) : T.SameSlot l x v ↔ block l x = block l v := by
  have digits := digits_agree (B := entries) (by decide) (x.toNat / 2 ^ pageBits)
    (v.toNat / 2 ^ pageBits) (T.format.lev - l) l
  rw [← block_eq, ← block_eq, Nat.mod_eq_of_lt (hx.block_lt hl), Nat.mod_eq_of_lt (hv.block_lt hl)]
    at digits
  rw [← digits]
  constructor
  · intro same k hk hk'
    have := congrArg Fin.val (same k hk (by omega))
    rwa [slotIndex_eq_block, slotIndex_eq_block, block_eq, block_eq] at this
  · intro same k hk hk'
    apply Fin.ext
    rw [slotIndex_eq_block, slotIndex_eq_block, block_eq, block_eq]
    exact same k hk (by omega)

/-- A search that goes through a slot continues with what hangs there. -/
theorem find_slot {s : State} {v : Word} {m : Nat} {q : Slot Word entries}
    (slot : T.slotAt s v m = some q) {x : Word} (same : T.SameSlot m x v) :
    T.find s x = Tree.find (slotIndex x) m (treeOf T.format.kind s.mem m (s.load q)) := by
  rw [find, Tree.find_subAt _ _ (reaches_slot slot) same (slotAt_le slot), subAt_slot slot]

/-- Addresses in the slot where a search ends are searched alike. -/
theorem find_same {s : State} {x y : Word} (same : T.SameSlot (T.find s x).1 y x) :
    T.find s y = T.find s x := find_treeOf_agree _ T.format.lev _ same

/-- What a search finds in a slot that holds the entry `e`. -/
def entryFind (l : Nat) (e : Word) : Nat × Option Word := (l, if e = 0#64 then none else some e)

/-- A search after an exchange finds the new entry if it goes through the slot. -/
theorem find_exchange_slot {s : State} (wf : T.WF s) {v : Word} {l : Nat} {r : Slot Word entries}
    (slot : T.slotAt s v l = some r) {e : Word} (writable : T.Writable l e) (x : Word) :
    (T.SameSlot l x v → T.find (T.exchange l r e s) x = entryFind l e) ∧
      (¬ T.SameSlot l x v → T.find (T.exchange l r e s) x = T.find s x) := by
  rw [find, tree_exchange wf slot writable]
  constructor
  · intro same
    rw [Tree.find_modify_same _ _ _ (reaches_slot slot) same (slotAt_le slot), entryTree, entryFind]
    split <;> rfl
  · intro differ
    simp only [SameSlot, not_forall, exists_prop] at differ
    rw [Tree.find_modify_other _ _ _ differ, find]

theorem find_exchange {s : State} (wf : T.WF s) {v : Word} {l : Nat} {r : Slot Word entries}
    (slot : T.slotAt s v l = some r) {e : Word} (writable : T.Writable l e) (hv : T.Inside v)
    {x : Word} (hx : T.Inside x) :
    T.find (T.exchange l r e s) x =
      if block l x = block l v then entryFind l e else T.find s x := by
  have iff := sameSlot_iff (slotAt_le slot) hx hv
  obtain ⟨same, other⟩ := find_exchange_slot wf slot writable x
  split
  · rename_i h
    exact same (iff.mpr h)
  · rename_i h
    exact other fun hs => h (iff.mp hs)

/-- The first address of a block. -/
def blockBase (l b : Nat) : Word := BitVec.ofNat 64 (b * 2 ^ (l * bpl + pageBits))

theorem blockBase_spec (lawful : T.format.Lawful) {l b : Nat}
    (fits : (b + 1) * 2 ^ (l * bpl + pageBits) ≤ 2 ^ (T.format.lev * bpl + pageBits)) :
    T.Inside (blockBase l b) ∧ block l (blockBase l b) = b := by
  have pos : 0 < 2 ^ (l * bpl + pageBits) := Nat.two_pow_pos _
  have small : 2 ^ (T.format.lev * bpl + pageBits) < 2 ^ 64 :=
    Nat.pow_lt_pow_right (by decide) (lawful.bits_lt (le_refl _))
  have lt : b * 2 ^ (l * bpl + pageBits) < 2 ^ (T.format.lev * bpl + pageBits) := by
    rw [Nat.succ_mul] at fits
    omega
  have value : (blockBase l b).toNat = b * 2 ^ (l * bpl + pageBits) := by
    rw [blockBase, BitVec.toNat_ofNat, Nat.mod_eq_of_lt (lt.trans small)]
  refine ⟨?_, ?_⟩
  · rw [Inside, value]
    exact lt
  · rw [block, value, Nat.mul_div_cancel _ pos]

/-- The next slot of the same table belongs to the next block. -/
theorem slotAt_next {s : State} {v u : Word} {l : Nat} (hl : l < T.format.lev)
    {r : Slot Word entries} (slot : T.slotAt s v l = some r)
    (next : block l u = block l v + 1) (room : block l v % entries + 1 < entries) :
    T.slotAt s u l = some (r.1, r.2 + 1) := by
  have agree : ∀ k, l < k → k < T.format.lev → slotIndex u k = slotIndex v k := by
    intro k hk _
    obtain ⟨d, rfl⟩ := Nat.exists_eq_add_of_lt hk
    have group : (block l v + 1) / entries = block l v / entries := by
      rw [Nat.succ_div_of_not_dvd]
      intro whole
      have := Nat.mod_eq_zero_of_dvd whole
      rw [Nat.add_mod, Nat.mod_eq_of_lt (a := 1) (by decide), Nat.mod_eq_of_lt room] at this
      omega
    apply Fin.ext
    rw [slotIndex_eq_block, slotIndex_eq_block, show l + d + 1 = l + (d + 1) by omega, block_add,
      block_add, next, Nat.pow_succ', ← Nat.div_div_eq_div_mul, ← Nat.div_div_eq_div_mul, group]
  obtain ⟨sibling, index⟩ := slotOf_sibling slot (by omega) agree
  have : slotIndex u l = r.2 + 1 := by
    apply Fin.ext
    rw [index, Fin.val_add, slotIndex_eq_block, slotIndex_eq_block, next]
    rw [show ((1 : Fin entries) : Nat) = 1 from rfl, Nat.mod_add_mod]
  rw [← this]
  exact sibling

/-! ## The inner loop -/

/-- The blocks of level `l` that a round of `n` slots from the slot of `v` on covers. -/
def Covered (l n : Nat) (v x : Word) : Prop := block l v ≤ block l x ∧ block l x < block l v + n

instance (l n : Nat) (v x : Word) : Decidable (Covered l n v x) :=
  inferInstanceAs (Decidable (_ ∧ _))

/-- A round stays in one table and inside the address width. -/
structure Fits (T : Pagetable) (l n : Nat) (v : Word) : Prop where
  inside : T.Inside v
  single : 1 < n → l < T.format.lev
  aligned : block l v % entries + n ≤ entries
  width : (block l v + n) * 2 ^ (l * bpl + pageBits) ≤ 2 ^ (T.format.lev * bpl + pageBits)

/-- The rest of a round starts at the next block. -/
theorem Fits.tail (lawful : T.format.Lawful) {l n : Nat} {v : Word} (fits : T.Fits l (n + 2) v) :
    block l (blockBase l (block l v + 1)) = block l v + 1 ∧
      T.Fits l (n + 1) (blockBase l (block l v + 1)) := by
  have room : (block l v + 1 + 1) * 2 ^ (l * bpl + pageBits) ≤ 2 ^ (T.format.lev * bpl + pageBits) :=
    (Nat.mul_le_mul_right _ (by omega)).trans fits.width
  obtain ⟨inside, base⟩ := blockBase_spec lawful room
  refine ⟨base, inside, fun _ => fits.single (by omega), ?_, ?_⟩
  · have := fits.aligned
    have step : (block l v + 1) % entries = block l v % entries + 1 := by
      rw [Nat.add_mod, Nat.mod_eq_of_lt (a := 1) (by decide), Nat.mod_eq_of_lt (by omega)]
    rw [base, step]
    omega
  · rw [base]
    exact (Nat.mul_le_mul_right _ (by omega)).trans fits.width

/-- **The inner loop**: the covered blocks take the new entries, the rest stays. -/
theorem replace_spec (lawful : T.format.Lawful) {l : Nat} {size : Word} :
    ∀ (n : Nat) (v : Word) (r : Slot Word entries) (e : Word) (s : State), T.WF s →
      T.slotAt s v l = some r → T.Fits l n v →
      (∀ j < n, T.Writable l (e + BitVec.ofNat 64 j * size)) →
      T.WF (T.replace l size n r e s) ∧ T.Frames s (T.replace l size n r e s) ∧
        (T.Exact s → (∀ j < n, e + BitVec.ofNat 64 j * size ≠ 0#64 →
          T.format.StableLeaf l (e + BitVec.ofNat 64 j * size)) →
          T.Exact (T.replace l size n r e s)) ∧
        ∀ x, T.Inside x → T.find (T.replace l size n r e s) x =
          if Covered l n v x then entryFind l (e + BitVec.ofNat 64 (block l x - block l v) * size)
          else T.find s x
  | 0, v, r, e, s, wf, slot, fits, writable => by
      refine ⟨wf, .refl s, fun exact_ _ => exact_, fun x hx => ?_⟩
      have : ¬ Covered l 0 v x := fun h => by have := h.1; have := h.2; omega
      rw [if_neg this]
      rfl
  | 1, v, r, e, s, wf, slot, fits, writable => by
      have first : T.Writable l e := by simpa using writable 0 (by omega)
      refine ⟨wf_exchange wf slot first lawful, frames_exchange wf slot first,
        fun exact_ stable => exact_exchange wf slot first (by simpa using stable 0 (by omega)) exact_,
        fun x hx => ?_⟩
      refine (find_exchange wf slot first fits.inside hx).trans ?_
      by_cases here : block l x = block l v
      · have : Covered l 1 v x := ⟨here.ge, by omega⟩
        rw [if_pos here, if_pos this, here]
        simp
      · have : ¬ Covered l 1 v x := fun h => here (by have := h.1; have := h.2; omega)
        rw [if_neg here, if_neg this]
  | n + 2, v, r, e, s, wf, slot, fits, writable => by
      have first : T.Writable l e := by simpa using writable 0 (by omega)
      have shift : ∀ j : Nat, e + size + BitVec.ofNat 64 j * size = e + BitVec.ofNat 64 (j + 1) * size := by
        intro j
        rw [BitVec.ofNat_add, BitVec.add_mul, BitVec.one_mul, BitVec.add_assoc, BitVec.add_comm size]
      obtain ⟨base, fits'⟩ := fits.tail lawful
      have slot' := slotAt_exchange wf slot first (le_refl l)
        (slotAt_next (fits.single (by omega)) slot base (by have := fits.aligned; omega))
      obtain ⟨wf', frames', exact', find'⟩ := replace_spec lawful (n + 1) _ _ (e + size) _
        (wf_exchange wf slot first lawful) slot' fits'
        (fun j hj => by rw [shift]; exact writable (j + 1) (by omega))
      refine ⟨wf', (frames_exchange wf slot first).trans frames', fun exact_ stable => ?_,
        fun x hx => ?_⟩
      · refine exact' (exact_exchange wf slot first (by simpa using stable 0 (by omega)) exact_) ?_
        intro j hj
        rw [shift]
        exact stable (j + 1) (by omega)
      · refine (find' x hx).trans ?_
        rw [find_exchange wf slot first fits.inside hx]
        by_cases here : block l x = block l v
        · have now : Covered l (n + 2) v x := ⟨by omega, by omega⟩
          have notLater : ¬ Covered l (n + 1) (blockBase l (block l v + 1)) x := by
            rintro ⟨low, -⟩
            omega
          rw [if_neg notLater, if_pos here, if_pos now, here]
          simp
        · by_cases later : Covered l (n + 1) (blockBase l (block l v + 1)) x
          · obtain ⟨low, high⟩ := later
            have now : Covered l (n + 2) v x := ⟨by omega, by omega⟩
            rw [if_pos ⟨low, high⟩, if_pos now, shift, base]
            congr 4
            omega
          · have never : ¬ Covered l (n + 2) v x := by
              rintro ⟨low, high⟩
              exact later ⟨by omega, by omega⟩
            rw [if_neg later, if_neg here, if_neg never]

/-! ## The outer loop -/

/-- Entry `j` of a round with attributes `a` and first frame `p`. -/
def roundEntry (l : Nat) (a p : Word) (j : Nat) : Word :=
  if a ≠ 0#64 then (p ||| a) + BitVec.ofNat 64 j * pageSize (l * bpl) else 0#64

/-- A round of the outer loop that keeps the page table well-formed. -/
structure Round (T : Pagetable) (l n : Nat) (a v p : Word) : Prop where
  fits : T.Fits l n v
  good : a ≠ 0#64 → ∀ j < n, T.format.GoodLeaf l (roundEntry l a p j)

/-- The code steps the entry by the page size. -/
theorem entry_eq (l : Nat) (a p : Word) (j : Nat) : (if a ≠ 0#64 then p ||| a else 0#64) +
    BitVec.ofNat 64 j * (if a ≠ 0#64 then pageSize (l * bpl) else 0#64) = roundEntry l a p j := by
  unfold roundEntry
  split
  · rfl
  · simp

theorem Round.writable {l n : Nat} {a v p : Word} (round : T.Round l n a v p) (j : Nat)
    (hj : j < n) : T.Writable l (roundEntry l a p j) := by
  by_cases zap : a = 0#64
  · exact Or.inl (by simp [roundEntry, zap])
  · exact Or.inr (round.good zap j hj)

/-- … and its leaves stable. -/
def StableRound (T : Pagetable) (l n : Nat) (a p : Word) : Prop :=
  a ≠ 0#64 → ∀ j < n, T.format.StableLeaf l (roundEntry l a p j)

/-- What a round makes of a covered address. -/
def written (T : Pagetable) (l : Nat) (a v p x : Word) : Translation :=
  T.format.translate x (entryFind l (roundEntry l a p (block l x - block l v)))

/-- What one round does when the walk did not run out of memory. -/
structure RoundEffect (T : Pagetable) (l n : Nat) (a v p : Word) (s s' : State) : Prop where
  wf : T.WF s'
  frames : T.Frames s s'
  exact_ : T.Exact s → T.StableRound l n a p → T.Exact s'
  effect : T.Exact s → ∀ x, T.Inside x →
    if Covered l n v x then T.translation s' x = T.written l a v p x else T.Untouched s s' x

theorem translate_hole (F : Format) (x : Word) (m : Nat) : F.translate x (m, none) = none := rfl

/-- Covered addresses share the table of their slots. -/
theorem Fits.group {l n : Nat} {v : Word} (fits : T.Fits l n v) {x : Word}
    (covered : Covered l n v x) {m : Nat} (hm : l < m) : block m x = block m v := by
  obtain ⟨d, rfl⟩ := Nat.exists_eq_add_of_lt hm
  obtain ⟨low, high⟩ := covered
  have aligned := fits.aligned
  have group : block l x / entries = block l v / entries := by
    have split := Nat.div_add_mod (block l v) entries
    apply Nat.div_eq_of_lt_le
    · rw [Nat.mul_comm]; omega
    · rw [Nat.succ_mul, Nat.mul_comm]; omega
  rw [show l + d + 1 = l + (d + 1) by omega, block_add, block_add, Nat.pow_succ',
    ← Nat.div_div_eq_div_mul, ← Nat.div_div_eq_div_mul, group]

/-- A round that finds a hole above its slots has nothing to do. -/
theorem round_hole (lawful : T.format.Lawful) {I : Word → Nat → Prop} {l n : Nat} {a v p : Word} {s s1 : State}
    (wf : T.WF s) (round : T.Round l n a v p) (links : T.Links I s s1) (zap : a = 0#64) {m : Nat}
    {q : Slot Word entries} (above : l < m) (slot : T.slotAt s1 v m = some q)
    (zero : s1.load q = 0#64) : T.RoundEffect l n a v p s s1 := by
  refine ⟨links.wf lawful wf, links.frames lawful wf, fun exact_ _ =>
    (links.splits lawful wf exact_).1, fun exact_ x hx => ?_⟩
  split
  · rename_i covered
    have same := (sameSlot_iff (slotAt_le slot) hx round.fits.inside).mpr
      (round.fits.group covered above)
    have hole : treeOf T.format.kind s1.mem m (s1.load q) = .hole :=
      treeOf_hole _ (zero ▸ Format.kind_zero _ _)
    rw [translation, find_slot slot same, hole, Tree.find, written, roundEntry, entryFind]
    simp [zap, translate_hole]
  · exact (links.splits lawful wf exact_).2 x

/-- A round that reaches its slots. -/
theorem round_replace (lawful : T.format.Lawful) {I : Word → Nat → Prop} {l n : Nat} {a v p : Word} {s s1 : State}
    (wf : T.WF s) (round : T.Round l n a v p) (links : T.Links I s s1) {r : Slot Word entries}
    (slot : T.slotAt s1 v l = some r) :
    T.RoundEffect l n a v p s (T.replace l (if a ≠ 0#64 then pageSize (l * bpl) else 0#64) n r
      (if a ≠ 0#64 then p ||| a else 0#64) s1) := by
  have entry := entry_eq l a p
  have wf1 := links.wf lawful wf
  obtain ⟨wf', frames', exact', find'⟩ := replace_spec lawful n v r _ s1 wf1 slot round.fits
    (fun j hj => by rw [entry]; exact round.writable j hj)
  refine ⟨wf', (links.frames lawful wf).trans frames', fun exact_ stable => ?_, fun exact_ x hx => ?_⟩
  · refine exact' (links.splits lawful wf exact_).1 fun j hj ne => ?_
    rw [entry] at ne ⊢
    by_cases zap : a = 0#64
    · exact absurd (by simp [roundEntry, zap]) ne
    · exact stable zap j hj
  · have found := find' x hx
    rw [entry] at found
    split
    · rename_i covered
      rw [if_pos covered] at found
      rw [translation, found, written]
    · rename_i outside
      rw [if_neg outside] at found
      refine Untouched.trans ((links.splits lawful wf exact_).2 x) ?_
      exact ⟨by rw [translation, found, translation], found ▸ le_refl _⟩

/-- The address of round `i`. -/
def nth (stride v : Word) (i : Nat) : Word := v + BitVec.ofNat 64 i * stride

theorem nth_zero (stride v : Word) : nth stride v 0 = v := by simp [nth]

theorem nth_succ (stride v : Word) (i : Nat) : nth stride v (i + 1) = nth stride (v + stride) i := by
  rw [nth, nth, BitVec.ofNat_add, BitVec.add_mul, BitVec.one_mul, BitVec.add_assoc,
    BitVec.add_comm stride]

/-- What a run of the outer loop does, as a whole. -/
structure LoopEffect (T : Pagetable) (l n : Nat) (a stride : Word) (count : Nat) (v p : Word)
    (s : State) (res : Status) (s' : State) : Prop where
  status : res = .success ∨ res = .insMem
  wf : T.WF s'
  frames : T.Frames s s'
  exact_ : T.Exact s → (∀ i < count, T.StableRound l n a (nth stride p i)) → T.Exact s'
  outside : T.Exact s → (∀ i < count, T.StableRound l n a (nth stride p i)) → ∀ x, T.Inside x →
    (∀ i < count, ¬ Covered l n (nth stride v i) x) → T.Untouched s s' x
  covered : T.Exact s → (∀ i < count, T.StableRound l n a (nth stride p i)) → ∀ x, T.Inside x →
    ∀ i < count, Covered l n (nth stride v i) x →
      (∀ j < count, Covered l n (nth stride v j) x → j = i) →
      (res = .success → T.translation s' x = T.written l a (nth stride v i) (nth stride p i) x) ∧
      (T.translation s' x = T.translation s x ∨
        T.translation s' x = T.written l a (nth stride v i) (nth stride p i) x)
  either : T.Exact s → (∀ i < count, T.StableRound l n a (nth stride p i)) → ∀ x, T.Inside x →
    T.translation s' x = T.translation s x ∨ ∃ i < count, Covered l n (nth stride v i) x ∧
      T.translation s' x = T.written l a (nth stride v i) (nth stride p i) x

/-- Prefixing a round to a run. -/
theorem RoundEffect.cons {l n : Nat} {a stride : Word} {count : Nat} {v p : Word} {s s1 s' : State}
    {res : Status} (first : T.RoundEffect l n a v p s s1)
    (rest : T.LoopEffect l n a stride count (v + stride) (p + stride) s1 res s') :
    T.LoopEffect l n a stride (count + 1) v p s res s' := by
  have here : ∀ {Q : Word → Prop}, (∀ i < count + 1, Q (nth stride p i)) →
      Q p ∧ ∀ i < count, Q (nth stride (p + stride) i) := fun all =>
    ⟨nth_zero stride p ▸ all 0 (by omega), fun i hi => nth_succ stride p i ▸ all (i + 1) (by omega)⟩
  refine ⟨rest.status, rest.wf, first.frames.trans rest.frames, fun exact_ stable => ?_,
    fun exact_ stable x hx none => ?_, fun exact_ stable x hx i hi covered unique => ?_,
    fun exact_ stable x hx => ?_⟩
  · obtain ⟨now, later⟩ := here stable
    exact rest.exact_ (first.exact_ exact_ now) later
  · obtain ⟨now, later⟩ := here stable
    have step := first.effect exact_ x hx
    rw [if_neg (nth_zero stride v ▸ none 0 (by omega))] at step
    exact step.trans (rest.outside (first.exact_ exact_ now) later x hx fun i hi =>
      nth_succ stride v i ▸ none (i + 1) (by omega))
  · obtain ⟨now, later⟩ := here stable
    have step := first.effect exact_ x hx
    cases i with
    | zero =>
        rw [nth_zero] at covered ⊢
        rw [nth_zero]
        rw [if_pos covered] at step
        have untouched := rest.outside (first.exact_ exact_ now) later x hx fun j hj again => by
          have := unique (j + 1) (by omega) (nth_succ stride v j ▸ again)
          omega
        have value := untouched.1.trans step
        exact ⟨fun _ => value, Or.inr value⟩
    | succ i =>
        have notNow : ¬ Covered l n v x := fun now => by
          have := unique 0 (by omega) (by rwa [nth_zero])
          omega
        rw [if_neg notNow] at step
        rw [nth_succ] at covered ⊢
        rw [nth_succ]
        obtain ⟨success, either⟩ := rest.covered (first.exact_ exact_ now) later x hx i (by omega)
          covered fun j hj again => by
            have := unique (j + 1) (by omega) (nth_succ stride v j ▸ again)
            omega
        rw [step.1] at either
        exact ⟨success, either⟩
  · obtain ⟨now, later⟩ := here stable
    have step := first.effect exact_ x hx
    rcases rest.either (first.exact_ exact_ now) later x hx with same | ⟨i, hi, covered, value⟩
    · rw [same]
      by_cases covered : Covered l n v x
      · rw [if_pos covered] at step
        exact Or.inr ⟨0, by omega, by rwa [nth_zero], by rw [nth_zero, nth_zero]; exact step⟩
      · rw [if_neg covered] at step
        exact Or.inl step.1
    · exact Or.inr ⟨i + 1, by omega, by rwa [nth_succ], by rw [nth_succ, nth_succ]; exact value⟩

/-- **The outer loop**: in every run whose rounds fit, each address is covered by
its round or left alone, and success means that every round was made. -/
theorem updateLoop_spec (lawful : T.format.Lawful) {l n : Nat} (hl : l ≤ T.format.lev)
    {a stride : Word} :
    ∀ (count : Nat) (v p : Word) (s : State) (res : Status) (s' : State), T.WF s →
      (∀ i < count, T.Round l n a (nth stride v i) (nth stride p i)) →
      T.updateLoop l n a stride count v p s = (res, s') →
      T.LoopEffect l n a stride count v p s res s'
  | 0, v, p, s, res, s', wf, rounds, run => by
      obtain ⟨rfl, rfl⟩ := Prod.mk.inj run
      exact ⟨Or.inl rfl, wf, .refl s, fun e _ => e, fun _ _ _ _ _ => ⟨rfl, le_refl _⟩,
        fun _ _ _ _ i hi => absurd hi (Nat.not_lt_zero i), fun _ _ _ _ => Or.inl rfl⟩
  | count + 1, v, p, s, res, s', wf, rounds, run => by
      have now : T.Round l n a v p := by simpa only [nth_zero] using rounds 0 (by omega)
      have later : ∀ i < count, T.Round l n a (nth stride (v + stride) i) (nth stride (p + stride) i) :=
        fun i hi => by rw [← nth_succ, ← nth_succ]; exact rounds (i + 1) (by omega)
      unfold updateLoop at run
      split at run
      · -- out of memory: only tables were installed
        rename_i s1 walked
        obtain ⟨links, -, -⟩ := walk_spec lawful wf (raced_anywhere s) (fun _ _ => trivial) hl walked
        obtain ⟨rfl, rfl⟩ := Prod.mk.inj run
        refine ⟨Or.inr rfl, links.wf lawful wf, links.frames lawful wf,
          fun exact_ _ => (links.splits lawful wf exact_).1,
          fun exact_ _ x _ _ => (links.splits lawful wf exact_).2 x,
          fun exact_ _ x _ i _ _ _ => ⟨fun h => (by cases h), Or.inl ?_⟩,
          fun exact_ _ x _ => Or.inl ((links.splits lawful wf exact_).2 x).1⟩
        exact ((links.splits lawful wf exact_).2 x).1
      · rename_i s1 walked
        obtain ⟨links, -, hole⟩ := walk_spec lawful wf (raced_anywhere s) (fun _ _ => trivial) hl walked
        obtain ⟨zap, m, q, above, slot, zero⟩ := hole rfl
        have first := round_hole lawful wf now links (by simpa using zap) above slot zero
        exact first.cons (updateLoop_spec lawful hl count _ _ s1 res s' first.wf later run)
      · rename_i r s1 walked
        obtain ⟨links, found, -⟩ := walk_spec lawful wf (raced_anywhere s) (fun _ _ => trivial) hl walked
        have first := round_replace lawful wf now links (found r rfl)
        exact first.cons (updateLoop_spec lawful hl count _ _ _ res s' first.wf later run)

/-! ## Updates as sequences of atomic steps -/

/-- One atomic step of an update: a link, or the exchange of an entry in a slot of
level `l` that `u` selects, of which `A u l e` is known. -/
inductive Edit (T : Pagetable) (I : Word → Nat → Prop) (A : Word → Nat → Word → Prop) :
    State → State → Prop
  | link {s s' : State} : T.Link I s s' → Edit T I A s s'
  | exchange (s : State) (u : Word) (l : Nat) (r : Slot Word entries) (e : Word) :
      T.slotAt s u l = some r → T.Inside u → T.Writable l e → A u l e →
      Edit T I A s (T.exchange l r e s)

abbrev Edits (T : Pagetable) (I : Word → Nat → Prop) (A : Word → Nat → Word → Prop) :
    State → State → Prop :=
  Relation.ReflTransGen (T.Edit I A)

section Edits

variable {I : Word → Nat → Prop} {A : Word → Nat → Word → Prop}

theorem Links.edits {s s' : State} (links : T.Links I s s') : T.Edits I A s s' :=
  Relation.ReflTransGen.mono (fun _ _ link => Edit.link link) s s' links

theorem Edit.wf (lawful : T.format.Lawful) {s s' : State} (wf : T.WF s) (edit : T.Edit I A s s') :
    T.WF s' := by
  cases edit with
  | link link => exact link.wf lawful wf
  | exchange u l r e slot inside writable known => exact wf_exchange wf slot writable lawful

/-- What every edit keeps, on a well-formed page table, a sequence of edits keeps. -/
theorem Edits.keep (lawful : T.format.Lawful) {Q : State → Prop}
    (step : ∀ a b, T.WF a → T.Edit I A a b → Q a → Q b) {s s' : State} (wf : T.WF s)
    (edits : T.Edits I A s s') (start : Q s) : T.WF s' ∧ Q s' := by
  induction edits with
  | refl => exact ⟨wf, start⟩
  | tail _ edit ih => exact ⟨edit.wf lawful ih.1, step _ _ ih.1 edit ih.2⟩

@[simp] theorem exchange_race (l : Nat) (r : Slot Word entries) (e : Word) (s : State) :
    (T.exchange l r e s).race = s.race := by
  simp only [exchange]
  split <;> rfl

theorem replace_race (l : Nat) (size : Word) :
    ∀ (n : Nat) (r : Slot Word entries) (e : Word) (s : State),
      (T.replace l size n r e s).race = s.race
  | 0, _, _, _ => rfl
  | n + 1, r, e, s => by rw [replace, replace_race l size n, exchange_race]

theorem replace_edits (lawful : T.format.Lawful) {l : Nat} {size : Word} :
    ∀ (n : Nat) (v : Word) (r : Slot Word entries) (e : Word) (s : State), T.WF s →
      T.slotAt s v l = some r → T.Fits l n v →
      (∀ j < n, T.Writable l (e + BitVec.ofNat 64 j * size)) →
      (∀ j < n, ∀ u, T.Inside u → block l u = block l v + j →
        A u l (e + BitVec.ofNat 64 j * size)) →
      T.Edits I A s (T.replace l size n r e s)
  | 0, v, r, e, s, wf, slot, fits, writable, known => .refl
  | n + 1, v, r, e, s, wf, slot, fits, writable, known => by
      have first : T.Writable l e := by simpa using writable 0 (by omega)
      have shift : ∀ j : Nat, e + size + BitVec.ofNat 64 j * size =
          e + BitVec.ofNat 64 (j + 1) * size := by
        intro j
        rw [BitVec.ofNat_add, BitVec.add_mul, BitVec.one_mul, BitVec.add_assoc, BitVec.add_comm size]
      have edit : T.Edit I A s (T.exchange l r e s) :=
        .exchange s v l r e slot fits.inside first
          (by simpa using known 0 (by omega) v fits.inside rfl)
      cases n with
      | zero => exact .single edit
      | succ n =>
          obtain ⟨base, fits'⟩ := fits.tail lawful
          have slot' := slotAt_exchange wf slot first (le_refl l)
            (slotAt_next (fits.single (by omega)) slot base (by have := fits.aligned; omega))
          refine .head edit (replace_edits lawful (n + 1) _ _ (e + size) _
            (wf_exchange wf slot first lawful) slot' fits' (fun j hj => ?_) fun j hj u hu at_ => ?_)
          · rw [shift]
            exact writable (j + 1) (by omega)
          · rw [shift]
            exact known (j + 1) (by omega) u hu (by omega)

/-- **An update is a sequence of edits**: of links for the addresses of its rounds and
those of other CPUs, and of exchanges in the covered slots. -/
theorem updateLoop_edits (lawful : T.format.Lawful) {l n : Nat} (hl : l ≤ T.format.lev)
    {a stride : Word} :
    ∀ (count : Nat) (v p : Word) (s : State) (res : Status) (s' : State), T.WF s → Raced I s →
      (∀ i < count, T.Round l n a (nth stride v i) (nth stride p i)) →
      (∀ i < count, ∀ m, l < m → I (nth stride v i) m) →
      (∀ i < count, ∀ j < n, ∀ u, T.Inside u → block l u = block l (nth stride v i) + j →
        A u l (roundEntry l a (nth stride p i) j)) →
      T.updateLoop l n a stride count v p s = (res, s') → T.Edits I A s s'
  | 0, v, p, s, res, s', wf, raced, rounds, own, known, run => by
      obtain ⟨rfl, rfl⟩ := Prod.mk.inj run
      exact .refl
  | count + 1, v, p, s, res, s', wf, raced, rounds, own, known, run => by
      have now : T.Round l n a v p := by simpa only [nth_zero] using rounds 0 (by omega)
      have later : ∀ i < count, T.Round l n a (nth stride (v + stride) i) (nth stride (p + stride) i) :=
        fun i hi => by rw [← nth_succ, ← nth_succ]; exact rounds (i + 1) (by omega)
      have ownNow : ∀ m, l < m → I v m := by simpa only [nth_zero] using own 0 (by omega)
      have own' : ∀ i < count, ∀ m, l < m → I (nth stride (v + stride) i) m :=
        fun i hi => by rw [← nth_succ]; exact own (i + 1) (by omega)
      have known' : ∀ i < count, ∀ j < n, ∀ u, T.Inside u →
          block l u = block l (nth stride (v + stride) i) + j →
          A u l (roundEntry l a (nth stride (p + stride) i) j) := by
        intro i hi j hj u hu
        rw [← nth_succ, ← nth_succ]
        exact known (i + 1) (by omega) j hj u hu
      unfold updateLoop at run
      split at run
      · rename_i s1 walked
        obtain ⟨rfl, rfl⟩ := Prod.mk.inj run
        exact (walk_spec lawful wf raced ownNow hl walked).1.edits
      · rename_i s1 walked
        have links := (walk_spec lawful wf raced ownNow hl walked).1
        exact links.edits.trans (updateLoop_edits lawful hl count _ _ s1 res s'
          (links.wf lawful wf) (links.raced raced) later own' known' run)
      · rename_i r s1 walked
        obtain ⟨links, found, -⟩ := walk_spec lawful wf raced ownNow hl walked
        have first := round_replace lawful wf now links (found r rfl)
        have edits := replace_edits (I := I) (A := A) lawful n v r _ s1 (links.wf lawful wf)
          (found r rfl) now.fits (fun j hj => by rw [entry_eq]; exact now.writable j hj)
          (fun j hj u hu at_ => by
            rw [entry_eq]
            simpa only [nth_zero] using known 0 (by omega) j hj u hu (by simpa only [nth_zero] using at_))
        have raced' : Raced I (T.replace l (if a ≠ 0#64 then pageSize (l * bpl) else 0#64) n r
            (if a ≠ 0#64 then p ||| a else 0#64) s1) := by
          unfold Raced
          rw [replace_race]
          exact links.raced raced
        exact (links.edits.trans edits).trans
          (updateLoop_edits lawful hl count _ _ _ res s' first.wf raced' later own' known' run)

end Edits

end Pagetable

end Nova.Kernel
