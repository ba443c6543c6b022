/-
# Nova.Kernel.PtabWalk — a walk changes the shape of a page table, not its meaning

The tree of a page table is read off the memory with `treeOf`; `WF` is the
invariant that the operations keep: tables are not shared, belong to Buddy's
client, and every leaf is a good one.

All that a walk does, its own steps and those of other CPUs, is a sequence of
`Link`s: a table is installed in an empty slot or over a large leaf, or a table
that came too late is given back.  One lemma for each thing that matters says
what a link does; `Links` carries it over whole walks:

* `Link.wf`, `Link.slotAt`: the invariant stays, and so does every slot;
* `Link.splits`: every address translates as before, at the same or a lower level,
  provided that the leaves are stable;
* `Link.frames`: nothing outside the page table is touched.

`walk_spec` says what a walk returns.
-/
import Mathlib.Logic.Relation
import Nova.Kernel.PtabEntry

namespace Nova.Kernel

open Nova.Theory.Words
open Nova.Theory.Radix

set_option autoImplicit false

namespace Pagetable

variable (T : Pagetable)

def tree (s : State) : Tree Word Word entries :=
  treeOf T.format.kind s.mem T.format.lev (s.load T.root)

/-- The slot of level `m` that the address `v` selects. -/
def slotAt (s : State) (v : Word) (m : Nat) : Option (Slot Word entries) :=
  slotOf T.format.kind s.mem (slotIndex v) m T.format.lev T.root

/-- Where the search for `x` ends: the level, and the leaf if there is one. -/
def find (s : State) (x : Word) : Nat × Option Word :=
  (T.tree s).find (slotIndex x) T.format.lev

def translation (s : State) (x : Word) : Translation := T.format.translate x (T.find s x)

/-- Two addresses select the same slot of level `l`. -/
def SameSlot (l : Nat) (x v : Word) : Prop :=
  ∀ k, l ≤ k → k < T.format.lev → slotIndex x k = slotIndex v k

/-- The invariant of a page table. -/
structure WF (s : State) : Prop where
  nodup : (T.tree s).pages.Nodup
  owned : ∀ page ∈ (T.tree s).pages, page ∈ s.live
  root_live : T.root.1 ∈ s.live
  root_apart : T.root.1 ∉ (T.tree s).pages
  leaves : (T.tree s).AllLeaves T.format.GoodLeaf T.format.lev
  root_small : T.format.isLarge T.format.lev (s.load T.root) = false

/-- Every leaf of the page table is stable: splintering loses nothing. -/
def Exact (s : State) : Prop := (T.tree s).AllLeaves T.format.StableLeaf T.format.lev

/-- What a lookup returns for the end of its search. -/
def Lookup.ofFind (F : Format) (x : Word) (ca : Cacheability) (sh : Shareability) :
    Nat × Option Word → Lookup
  | (l, none) => { pm := .none, p := 0#64, o := l * bpl, ca, sh }
  | (l, some e) =>
      { pm := F.pagePm e, p := F.addr l e ||| x &&& offsMask (l * bpl), o := l * bpl,
        ca := F.pageCa l e, sh := F.pageSh e }

variable {T}

theorem lookupFrom_eq (lawful : T.format.Lawful) (mem : Memory Word Word entries) (x : Word)
    (ca : Cacheability) (sh : Shareability) :
    ∀ (l : Nat) (e : Word), T.lookupFrom mem x ca sh l e =
      Lookup.ofFind T.format x ca sh ((treeOf T.format.kind mem l e).find (slotIndex x) l)
  | l, e => by
      unfold lookupFrom
      cases h : T.format.kind l e with
      | hole =>
          rw [treeOf_hole mem h, if_pos (Format.kind_hole h)]
          rfl
      | leaf =>
          obtain ⟨ne, table⟩ := Format.kind_leaf_iff.mp h
          rw [treeOf_leaf mem h, if_neg ne, table]
          cases l <;> rfl
      | table p =>
          obtain ⟨ne, table, rfl⟩ := Format.kind_table_iff.mp h
          cases l with
          | zero => rw [lawful.table_zero] at table; cases table
          | succ l =>
              rw [treeOf_table mem h, if_neg ne, table]
              exact lookupFrom_eq lawful mem x ca sh l _

/-- `lookup` reports the end of the search in the tree. -/
theorem lookup_eq (lawful : T.format.Lawful) (s : State) (x : Word) (ca : Cacheability)
    (sh : Shareability) : T.lookup x ca sh s = Lookup.ofFind T.format x ca sh (T.find s x) :=
  lookupFrom_eq lawful s.mem x ca sh T.format.lev (s.load T.root)

/-! ## Links -/

variable (T)

/-- One step of a walk, by this or another CPU; `I v m` is what is known of the
address and the level of an installed table. -/
inductive Link (I : Word → Nat → Prop) : State → State → Prop
  /-- An answer of the allocator, or a window for the others, is used up. -/
  | answer (s : State) (supply : List Word) (race : List (List (Word × Nat))) :
      (∀ others ∈ race, others ∈ s.race) → Link I s { s with supply, race }
  /-- A new table is installed in a slot that holds none. -/
  | install (s : State) (v : Word) (m : Nat) (r : Slot Word entries) (page : Word) :
      T.slotAt s v m = some r → m ≠ 0 → (∀ p, T.format.kind m (s.load r) ≠ .table p) →
      s.Usable page → I v m → Link I s (T.install m r (s.load r) page (s.take page))
  /-- A new table came too late and is given back. -/
  | lose (s : State) (page p size : Word) :
      s.Usable page → Link I s (((s.take page).construct page p size).free page)

abbrev Links (I : Word → Nat → Prop) : State → State → Prop := Relation.ReflTransGen (T.Link I)

/-- Nothing is known. -/
def Anywhere : Word → Nat → Prop := fun _ _ => True

/-- What the other CPUs are going to install satisfies `I`. -/
def Raced (I : Word → Nat → Prop) (s : State) : Prop :=
  ∀ others ∈ s.race, ∀ at_ ∈ others, I at_.1 at_.2

theorem raced_anywhere (s : State) : Raced Anywhere s := fun _ _ _ _ => trivial

/-- Nothing outside the page table is touched, and its new tables are new pages. -/
structure Frames (s s' : State) : Prop where
  live : ∀ page ∈ s.live, page ∈ s'.live
  pages : ∀ page ∈ (T.tree s').pages, page ∈ (T.tree s).pages ∨ page ∉ s.live
  cells : ∀ r : Slot Word entries, r.1 ∈ s.live → r.1 ∉ (T.tree s).pages → r ≠ T.root →
    s'.load r = s.load r
  pending : ∀ page ∈ s'.pending, page ∈ s.pending ∨
    page ∈ s'.live ∧ page ∉ (T.tree s').pages ∧ (page ∈ (T.tree s).pages ∨ page ∉ s.live)

/-- An address that is left alone: the same translation, at the same or a lower level. -/
def Untouched (s s' : State) (x : Word) : Prop :=
  T.translation s' x = T.translation s x ∧ (T.find s' x).1 ≤ (T.find s x).1

/-- Every address is left alone. -/
def Splits (s s' : State) : Prop := ∀ x, T.Untouched s s' x

variable {T}

theorem Frames.refl (s : State) : T.Frames s s :=
  ⟨fun _ h => h, fun _ h => Or.inl h, fun _ _ _ _ => rfl, fun _ h => Or.inl h⟩

theorem Frames.trans {s s' s'' : State} (first : T.Frames s s') (second : T.Frames s' s'') :
    T.Frames s s'' where
  live page h := second.live page (first.live page h)
  pages page h := by
    rcases second.pages page h with old | fresh
    · exact first.pages page old
    · exact Or.inr fun h => fresh (first.live page h)
  cells r live out ne := by
    have out' : r.1 ∉ (T.tree s').pages := by
      intro h
      rcases first.pages r.1 h with old | fresh
      · exact out old
      · exact fresh live
    rw [second.cells r (first.live r.1 live) out' ne, first.cells r live out ne]
  pending page h := by
    rcases second.pending page h with earlier | ⟨live, out, source⟩
    · rcases first.pending page earlier with before | ⟨live, out, source⟩
      · exact Or.inl before
      · refine Or.inr ⟨second.live page live, fun again => ?_, source⟩
        rcases second.pages page again with old | fresh
        · exact out old
        · exact fresh live
    · refine Or.inr ⟨live, out, ?_⟩
      rcases source with inTree | fresh
      · exact first.pages page inTree
      · exact Or.inr fun h => fresh (first.live page h)

theorem Untouched.trans {s s' s'' : State} {x : Word} (first : T.Untouched s s' x)
    (second : T.Untouched s' s'' x) : T.Untouched s s'' x :=
  ⟨second.1.trans first.1, second.2.trans first.2⟩

theorem Splits.refl (s : State) : T.Splits s s := fun _ => ⟨rfl, le_refl _⟩

theorem Splits.trans {s s' s'' : State} (first : T.Splits s s') (second : T.Splits s' s'') :
    T.Splits s s'' := fun x => (first x).trans (second x)

/-- A slot that an address selects is the root or lies in a table of the tree. -/
theorem slotAt_owner {s : State} {v : Word} {m : Nat} {r : Slot Word entries}
    (slot : T.slotAt s v m = some r) :
    (m = T.format.lev ∧ r = T.root) ∨ (m ≠ T.format.lev ∧ r.1 ∈ (T.tree s).pages) := by
  by_cases top : T.format.lev = m
  · subst top
    exact Or.inl ⟨rfl, Option.some.inj (slot.symm.trans (slotOf_self _ _ _ _))⟩
  · exact Or.inr ⟨fun e => top e.symm, slotOf_mem_pages slot top⟩

theorem slotAt_le {s : State} {v : Word} {m : Nat} {r : Slot Word entries}
    (slot : T.slotAt s v m = some r) : m ≤ T.format.lev := slotOf_le slot

theorem WF.slot_live {s : State} (wf : T.WF s) {v : Word} {m : Nat} {r : Slot Word entries}
    (slot : T.slotAt s v m = some r) : r.1 ∈ s.live := by
  rcases slotAt_owner slot with ⟨-, rfl⟩ | ⟨-, member⟩
  · exact wf.root_live
  · exact wf.owned _ member

theorem slotAt_eq_slot (s : State) (v : Word) (m : Nat) :
    T.slotAt s v m = Tree.slot (slotIndex v) m T.format.lev T.root (T.tree s) :=
  slotOf_eq_slot s.mem (slotIndex v) m T.format.lev T.root

/-- What hangs in a slot is what its entry stands for. -/
theorem subAt_slot {s : State} {v : Word} {m : Nat} {r : Slot Word entries}
    (slot : T.slotAt s v m = some r) :
    (T.tree s).subAt (slotIndex v) m T.format.lev = treeOf T.format.kind s.mem m (s.load r) :=
  slotOf_subAt slot

theorem reaches_slot {s : State} {v : Word} {m : Nat} {r : Slot Word entries}
    (slot : T.slotAt s v m = some r) : (T.tree s).Reaches (slotIndex v) m T.format.lev :=
  slotOf_reaches slot

/-- A leaf in a slot is a good one. -/
theorem WF.leaf_good {s : State} (wf : T.WF s) {v : Word} {m : Nat} {r : Slot Word entries}
    (slot : T.slotAt s v m = some r) (leaf : T.format.kind m (s.load r) = .leaf) :
    T.format.GoodLeaf m (s.load r) := by
  have := Tree.allLeaves_subAt _ _ (reaches_slot slot) wf.leaves
  rw [subAt_slot slot, treeOf_leaf _ leaf] at this
  exact this

/-- An entry that refers to a table is never a large page. -/
theorem WF.table_small {s : State} (wf : T.WF s) (lawful : T.format.Lawful) {v : Word} {m : Nat}
    {r : Slot Word entries} {p : Word} (slot : T.slotAt s v m = some r)
    (table : T.format.kind m (s.load r) = .table p) : T.format.isLarge m (s.load r) = false := by
  rcases slotAt_owner slot with ⟨rfl, rfl⟩ | ⟨below, -⟩
  · exact wf.root_small
  · exact lawful.table_not_large m _ below (Format.kind_table_iff.mp table).2.1

/-! ## Writing one entry -/

/-- The effect of a write to a slot on the tree. -/
theorem tree_store {s : State} (nodup : (T.tree s).pages.Nodup)
    (apart : T.root.1 ∉ (T.tree s).pages) {v : Word} {m : Nat} {r : Slot Word entries}
    (slot : T.slotAt s v m = some r) (e : Word) :
    T.tree (s.store r e) = Tree.modify (slotIndex v) m
      (treeOf T.format.kind (s.store r e).mem m e) T.format.lev (T.tree s) :=
  treeOf_write e slot nodup apart

/-- A page that is not in use may be filled with anything. -/
theorem tree_construct {s : State} (wf : T.WF s) {page : Word} (unused : page ∉ s.live) (p size : Word) :
    T.tree (s.construct page p size) = T.tree s ∧
      (∀ v m, T.slotAt (s.construct page p size) v m = T.slotAt s v m) ∧
      ∀ r : Slot Word entries, r.1 ∈ s.live → (s.construct page p size).load r = s.load r := by
  have load : ∀ r : Slot Word entries, r.1 ∈ s.live →
      (s.construct page p size).load r = s.load r := by
    intro r live
    have ne : r.1 ≠ page := fun e => unused (e ▸ live)
    simp [State.construct, State.load, Function.update_of_ne ne]
  have same : ∀ q ∈ (T.tree s).pages, (s.construct page p size).mem q = s.mem q := by
    intro q member
    have ne : q ≠ page := fun e => unused (e ▸ wf.owned q member)
    simp [State.construct, Function.update_of_ne ne]
  refine ⟨?_, fun v m => ?_, load⟩
  · rw [tree, load T.root wf.root_live]
    exact treeOf_congr T.format.lev _ same
  · exact slotOf_congr (fun _ => load T.root wf.root_live) same

theorem kind_tableEntry (lawful : T.format.Lawful) {m : Nat} (pos : m ≠ 0) (hm : m ≤ T.format.lev)
    {page : Word} (ne : page ≠ 0#64) (frame : Within pageBits 48 page) :
    T.format.kind m (T.tableEntry m page) = .table page ∧
      T.format.isLarge m (T.tableEntry m page) = false := by
  have frame0 : T.format.Frame 0 page := frame.mono (by simp) lawful.addr_min
  unfold tableEntry
  split
  · refine ⟨Format.kind_table_iff.mpr ⟨?_, ?_, ?_⟩, ?_⟩
    · exact fun zero => ne (BitVec.or_eq_zero_iff.mp zero).1
    · rw [lawful.table_frame m page _ frame0, lawful.ptab_table m pos]
    · exact lawful.addr_or (Nat.zero_le _) frame0 fun i hi => lawful.ptab_clear i (by omega)
    · rw [lawful.large_frame m page _ frame0, lawful.ptab_large]
  · -- the root entry carries no attributes
    rename_i top
    obtain rfl : m = T.format.lev := by simpa using top
    have bare : page = page ||| 0#64 := by simp
    refine ⟨Format.kind_table_iff.mpr ⟨ne, ?_, ?_⟩, ?_⟩
    · rw [bare, lawful.table_frame _ page _ frame0, lawful.root_table]
    · rw [bare]
      exact (lawful.addr_or (Nat.zero_le _) frame0 fun i _ _ => by simp).trans bare
    · rw [bare, lawful.large_frame _ page _ frame0, lawful.root_large]

theorem leaf_of_bare {l : Nat} {e : Word} (bare : ∀ p, T.format.kind l e ≠ .table p)
    (ne : e ≠ 0#64) : T.format.kind l e = .leaf := by
  cases h : T.format.kind l e with
  | hole => exact absurd (Format.kind_hole h) ne
  | leaf => rfl
  | table p => exact absurd h (bare p)

/-- What hangs in the new table's slots. -/
def fragment (T : Pagetable) (m : Nat) (e : Word) (i : Fin entries) : Tree Word Word entries :=
  if e = 0#64 then .hole else .leaf ((T.splinter m e).1 + BitVec.ofNat 64 i * (T.splinter m e).2)

/-- The effect of installing a table on the tree. -/
theorem tree_install (lawful : T.format.Lawful) {s : State} (wf : T.WF s) {v : Word} {m : Nat}
    {r : Slot Word entries} {page : Word} (slot : T.slotAt s v m = some r) (pos : m ≠ 0)
    (bare : ∀ p, T.format.kind m (s.load r) ≠ .table p) (usable : s.Usable page) :
    T.tree (T.install m r (s.load r) page (s.take page)) =
      Tree.modify (slotIndex v) m (.table page (T.fragment m (s.load r))) T.format.lev (T.tree s) := by
  obtain ⟨ne, frame, unused⟩ := usable
  obtain ⟨k, rfl⟩ := Nat.exists_eq_succ_of_ne_zero pos
  -- the new table is filled while nothing refers to it
  obtain ⟨tree, slots, -⟩ := tree_construct wf unused (T.splinter (k + 1) (s.load r)).1
    (T.splinter (k + 1) (s.load r)).2
  have filled : T.tree (T.install (k + 1) r (s.load r) page (s.take page)) =
      Tree.modify (slotIndex v) (k + 1) (treeOf T.format.kind
        (T.install (k + 1) r (s.load r) page (s.take page)).mem (k + 1) (T.tableEntry (k + 1) page))
        T.format.lev (T.tree s) := by
    have := tree_store (s := s.construct page (T.splinter (k + 1) (s.load r)).1
        (T.splinter (k + 1) (s.load r)).2) (by rw [tree]; exact wf.nodup)
      (by rw [tree]; exact wf.root_apart) ((slots v (k + 1)).trans slot) (T.tableEntry (k + 1) page)
    rw [tree] at this
    exact this
  rw [filled, treeOf_table _ (kind_tableEntry lawful pos (slotAt_le slot) ne frame).1]
  congr 2
  funext i
  have apart : page ≠ r.1 := fun e => unused (e ▸ wf.slot_live slot)
  have word : (T.install (k + 1) r (s.load r) page (s.take page)).mem page i =
      (T.splinter (k + 1) (s.load r)).1 + BitVec.ofNat 64 i * (T.splinter (k + 1) (s.load r)).2 := by
    simp [install, State.store, State.construct, State.take, write_page_ne _ _ _ apart]
  rw [word, fragment]
  split
  · rename_i zero
    rw [zero]
    exact treeOf_hole _ (by simp [splinter, Format.kind_zero])
  · rename_i nonzero
    have leaf := leaf_of_bare bare nonzero
    exact treeOf_leaf _ (splinter_good lawful (wf.leaf_good slot leaf) i).1.leaf

/-! ## What a link does -/

/-- What hangs in a slot without a table. -/
theorem treeOf_bare (l : Nat) {e : Word} (bare : ∀ p, T.format.kind l e ≠ .table p)
    (mem : Memory Word Word entries) :
    treeOf T.format.kind mem l e = (if e = 0#64 then .hole else .leaf e) := by
  split
  · rename_i zero
    exact treeOf_hole mem (zero ▸ Format.kind_zero _ _)
  · exact treeOf_leaf mem (leaf_of_bare bare ‹_›)

theorem fragment_pages (m : Nat) (e : Word) (i : Fin entries) : (T.fragment m e i).pages = [] := by
  unfold fragment
  split <;> rfl

theorem pages_fragments (page : Word) (m : Nat) (e : Word) :
    (Tree.table page (T.fragment m e)).pages = [page] := by
  rw [Tree.pages, List.flatMap_eq_nil_iff.mpr fun i _ => fragment_pages m e i]

/-- What is read after installing a table, at pages that were in use before. -/
theorem load_install {s : State} (m : Nat) (r : Slot Word entries) (e : Word) {page : Word}
    (usable : s.Usable page) {q : Slot Word entries} (live : q.1 ∈ s.live) :
    (T.install m r e page (s.take page)).load q =
      if q = r then T.tableEntry m page else s.load q := by
  have unused := usable.2.2
  split
  · rename_i same
    rw [same]
    exact write_self _ _ _
  · rename_i other
    have ne : q.1 ≠ page := fun e => unused (e ▸ live)
    exact (write_ne _ _ _ other).trans (by simp [State.construct, State.take, State.load,
      Function.update_of_ne ne])

section Install

variable (lawful : T.format.Lawful) {s : State} (wf : T.WF s) {v : Word} {m : Nat}
  {r : Slot Word entries} {page : Word} (slot : T.slotAt s v m = some r) (pos : m ≠ 0)
  (bare : ∀ p, T.format.kind m (s.load r) ≠ .table p) (usable : s.Usable page)

include lawful wf slot pos bare usable

/-- Installing a table adds it to the tree and takes nothing away. -/
theorem pages_install :
    (T.tree (T.install m r (s.load r) page (s.take page))).pages.Perm
      (page :: (T.tree s).pages) := by
  obtain ⟨rest, before, after⟩ := Tree.pages_modify (slotIndex v) m _ _ (reaches_slot slot)
  rw [subAt_slot slot, treeOf_bare m bare] at before
  have old : (T.tree s).pages.Perm rest := by
    split at before
    · exact before
    · exact before
  rw [tree_install lawful wf slot pos bare usable]
  refine (after _).trans ?_
  rw [pages_fragments]
  exact old.symm.cons page

omit usable in
/-- The new table's leaves are good. -/
theorem fragments_good :
    Tree.AllLeaves T.format.GoodLeaf m (Tree.table page (T.fragment m (s.load r))) := by
  intro i
  unfold fragment
  split
  · trivial
  · rename_i ne
    have leaf := leaf_of_bare bare ne
    obtain ⟨k, rfl⟩ := Nat.exists_eq_succ_of_ne_zero pos
    exact (splinter_good lawful (wf.leaf_good slot leaf) i).1

theorem exact_install (exact : T.Exact s) :
    T.Exact (T.install m r (s.load r) page (s.take page)) := by
  unfold Exact
  rw [tree_install lawful wf slot pos bare usable]
  refine Tree.allLeaves_modify _ _ ?_ _ _ exact
  intro i
  unfold fragment
  split
  · trivial
  · rename_i ne
    have leaf := leaf_of_bare bare ne
    obtain ⟨k, rfl⟩ := Nat.exists_eq_succ_of_ne_zero pos
    exact (splinter_good lawful (wf.leaf_good slot leaf) i).2.1

theorem wf_install : T.WF (T.install m r (s.load r) page (s.take page)) := by
  have pages := pages_install lawful wf slot pos bare usable
  have fresh : page ∉ (T.tree s).pages := fun h => usable.2.2 (wf.owned _ h)
  refine ⟨?_, ?_, ?_, ?_, ?_, ?_⟩
  · exact pages.nodup_iff.mpr (List.nodup_cons.mpr ⟨fresh, wf.nodup⟩)
  · intro q member
    rcases List.mem_cons.mp (pages.mem_iff.mp member) with rfl | old
    · exact List.mem_cons_self
    · exact List.mem_cons_of_mem _ (wf.owned q old)
  · exact List.mem_cons_of_mem _ wf.root_live
  · intro member
    rcases List.mem_cons.mp (pages.mem_iff.mp member) with new | old
    · exact usable.2.2 (new ▸ wf.root_live)
    · exact wf.root_apart old
  · rw [tree_install lawful wf slot pos bare usable]
    exact Tree.allLeaves_modify _ _ (fragments_good lawful wf slot pos bare) _ _ wf.leaves
  · rw [load_install m r _ usable wf.root_live]
    split
    · rename_i same
      rcases slotAt_owner slot with ⟨rfl, -⟩ | ⟨-, member⟩
      · exact (kind_tableEntry lawful pos (le_refl _) usable.1 usable.2.1).2
      · exact absurd (same ▸ member) wf.root_apart
    · exact wf.root_small

theorem frames_install : T.Frames s (T.install m r (s.load r) page (s.take page)) := by
  have pages := pages_install lawful wf slot pos bare usable
  refine ⟨fun _ h => List.mem_cons_of_mem _ h, fun q member => ?_, fun q live out ne => ?_,
    fun _ h => Or.inl h⟩
  · rcases List.mem_cons.mp (pages.mem_iff.mp member) with rfl | old
    · exact Or.inr usable.2.2
    · exact Or.inl old
  · rw [load_install m r _ usable live, if_neg]
    rintro rfl
    rcases slotAt_owner slot with ⟨-, rfl⟩ | ⟨-, member⟩
    · exact ne rfl
    · exact out member

theorem slotAt_install {u : Word} {n : Nat} {q : Slot Word entries}
    (other : T.slotAt s u n = some q) :
    T.slotAt (T.install m r (s.load r) page (s.take page)) u n = some q := by
  rw [slotAt_eq_slot] at other ⊢
  rw [tree_install lawful wf slot pos bare usable]
  refine Tree.slot_modify _ _ _ _ other (reaches_slot slot) fun p sub same => ?_
  rw [subAt_slot slot, treeOf_bare m bare] at same
  split at same <;> cases same

/-- A search after an installation: through the slot it ends one level lower, in a
hole or in a part of the leaf; elsewhere it ends as before. -/
theorem find_install (x : Word) :
    (T.SameSlot m x v ∧
      ((T.find s x = (m, none) ∧
          T.find (T.install m r (s.load r) page (s.take page)) x = (m - 1, none)) ∨
        (T.format.kind m (s.load r) = .leaf ∧ T.find s x = (m, some (s.load r)) ∧
          T.find (T.install m r (s.load r) page (s.take page)) x =
            (m - 1, some ((T.splinter m (s.load r)).1 +
              BitVec.ofNat 64 (slotIndex x (m - 1)) * (T.splinter m (s.load r)).2))))) ∨
      T.find (T.install m r (s.load r) page (s.take page)) x = T.find s x := by
  unfold find
  rw [tree_install lawful wf slot pos bare usable]
  by_cases agree : T.SameSlot m x v
  · left
    refine ⟨agree, ?_⟩
    rw [Tree.find_modify_same _ _ _ (reaches_slot slot) agree (slotAt_le slot),
      Tree.find_subAt _ _ (reaches_slot slot) agree (slotAt_le slot), subAt_slot slot,
      treeOf_bare m bare, Tree.find, fragment]
    split
    · exact Or.inl ⟨rfl, rfl⟩
    · rename_i ne
      exact Or.inr ⟨leaf_of_bare bare ne, rfl, rfl⟩
  · right
    simp only [SameSlot, not_forall, exists_prop] at agree
    rw [Tree.find_modify_other _ _ _ agree]

theorem splits_install (exact : T.Exact s) :
    T.Splits s (T.install m r (s.load r) page (s.take page)) := by
  intro x
  unfold Untouched translation
  rcases find_install lawful wf slot pos bare usable x with
    ⟨-, ⟨before, after⟩ | ⟨leaf, before, after⟩⟩ | same
  · rw [before, after]
    exact ⟨rfl, Nat.sub_le m 1⟩
  · rw [before, after]
    obtain ⟨k, rfl⟩ := Nat.exists_eq_succ_of_ne_zero pos
    have stable := Tree.allLeaves_subAt _ _ (reaches_slot slot) exact
    rw [subAt_slot slot, treeOf_leaf _ leaf] at stable
    exact ⟨splinter_translate lawful (wf.leaf_good slot leaf) stable x, Nat.sub_le _ 1⟩
  · rw [same]
    exact ⟨rfl, le_refl _⟩

end Install

section Links

variable {I : Word → Nat → Prop} (lawful : T.format.Lawful) {s s' : State}
include lawful

theorem Link.wf (wf : T.WF s) (link : T.Link I s s') : T.WF s' := by
  cases link with
  | answer supply race sub =>
      exact ⟨wf.nodup, wf.owned, wf.root_live, wf.root_apart, wf.leaves, wf.root_small⟩
  | install v m r page slot pos bare usable known => exact wf_install lawful wf slot pos bare usable
  | lose page p size usable =>
      obtain ⟨tree, -, load⟩ := tree_construct wf usable.2.2 p size
      have same : T.tree (((s.take page).construct page p size).free page) = T.tree s := tree
      have live : (((s.take page).construct page p size).free page).live = s.live :=
        List.erase_cons_head _ _
      refine ⟨by rw [same]; exact wf.nodup, ?_, ?_, by rw [same]; exact wf.root_apart,
        by rw [same]; exact wf.leaves, ?_⟩
      · rw [same, live]; exact wf.owned
      · rw [live]; exact wf.root_live
      · rw [show (((s.take page).construct page p size).free page).load T.root = s.load T.root from
          load T.root wf.root_live]
        exact wf.root_small

theorem Link.slotAt (wf : T.WF s) (link : T.Link I s s') {v : Word} {m : Nat} {r : Slot Word entries}
    (slot : T.slotAt s v m = some r) : T.slotAt s' v m = some r := by
  cases link with
  | answer supply race sub => exact slot
  | install v' m' r' page slot' pos bare usable known =>
      exact slotAt_install lawful wf slot' pos bare usable slot
  | lose page p size usable =>
      exact ((tree_construct wf usable.2.2 p size).2.1 v m).trans slot

theorem Link.exact (wf : T.WF s) (exact_ : T.Exact s) (link : T.Link I s s') : T.Exact s' := by
  cases link with
  | answer supply race sub => exact exact_
  | install v m r page slot pos bare usable known =>
      exact exact_install lawful wf slot pos bare usable exact_
  | lose page p size usable =>
      have same : T.tree (((s.take page).construct page p size).free page) = T.tree s :=
        (tree_construct wf usable.2.2 p size).1
      unfold Exact
      rw [same]
      exact exact_

theorem Link.splits (wf : T.WF s) (exact_ : T.Exact s) (link : T.Link I s s') : T.Splits s s' := by
  cases link with
  | answer supply race sub => exact Splits.refl s
  | install v m r page slot pos bare usable known =>
      exact splits_install lawful wf slot pos bare usable exact_
  | lose page p size usable =>
      have same : T.tree (((s.take page).construct page p size).free page) = T.tree s :=
        (tree_construct wf usable.2.2 p size).1
      intro x
      unfold Untouched translation find
      rw [same]
      exact ⟨rfl, le_refl _⟩

theorem Link.frames (wf : T.WF s) (link : T.Link I s s') : T.Frames s s' := by
  cases link with
  | answer supply race sub =>
      exact ⟨fun _ h => h, fun _ h => Or.inl h, fun _ _ _ _ => rfl, fun _ h => Or.inl h⟩
  | install v m r page slot pos bare usable known => exact frames_install lawful wf slot pos bare usable
  | lose page p size usable =>
      obtain ⟨tree, -, load⟩ := tree_construct wf usable.2.2 p size
      have same : T.tree (((s.take page).construct page p size).free page) = T.tree s := tree
      have live : (((s.take page).construct page p size).free page).live = s.live :=
        List.erase_cons_head _ _
      exact ⟨fun q h => live ▸ h, fun q h => Or.inl (same ▸ h), fun q h _ _ => load q h,
        fun _ h => Or.inl h⟩

/-- A search after a link ends where it did, or one level below the slot that took a
table. -/
theorem Link.find_cases (wf : T.WF s) (link : T.Link I s s') (x : Word) :
    T.find s' x = T.find s x ∨ ∃ v m, I v m ∧ m ≠ 0 ∧ T.SameSlot m x v ∧ (T.find s x).1 = m ∧
      (T.find s' x).1 = m - 1 := by
  cases link with
  | answer supply race sub => exact Or.inl rfl
  | install v m r page slot pos bare usable known =>
      rcases find_install lawful wf slot pos bare usable x with
        ⟨same, ⟨before, after⟩ | ⟨-, before, after⟩⟩ | elsewhere
      · exact Or.inr ⟨v, m, known, pos, same, by rw [before], by rw [after]⟩
      · exact Or.inr ⟨v, m, known, pos, same, by rw [before], by rw [after]⟩
      · exact Or.inl elsewhere
  | lose page p size usable =>
      have same : T.tree (((s.take page).construct page p size).free page) = T.tree s :=
        (tree_construct wf usable.2.2 p size).1
      left
      unfold find
      rw [same]

/-- What every link keeps, on a well-formed page table, a sequence of links keeps. -/
theorem Links.keep {Q : State → Prop} (step : ∀ a b, T.WF a → T.Link I a b → Q a → Q b)
    (wf : T.WF s) (links : T.Links I s s') (start : Q s) : T.WF s' ∧ Q s' := by
  induction links with
  | refl => exact ⟨wf, start⟩
  | tail _ link ih => exact ⟨link.wf lawful ih.1, step _ _ ih.1 link ih.2⟩

theorem Links.wf (wf : T.WF s) (links : T.Links I s s') : T.WF s' :=
  (Links.keep lawful (Q := fun _ => True) (fun _ _ _ _ _ => trivial) wf links trivial).1

theorem Links.slotAt (wf : T.WF s) (links : T.Links I s s') {v : Word} {m : Nat}
    {r : Slot Word entries} (slot : T.slotAt s v m = some r) : T.slotAt s' v m = some r :=
  (Links.keep lawful (Q := fun a => T.slotAt a v m = some r)
    (fun _ _ wf link slot => link.slotAt lawful wf slot) wf links slot).2

theorem Links.splits (wf : T.WF s) (exact_ : T.Exact s) (links : T.Links I s s') :
    T.Exact s' ∧ T.Splits s s' :=
  (Links.keep lawful (Q := fun a => T.Exact a ∧ T.Splits s a)
    (fun _ _ wf link before => ⟨link.exact lawful wf before.1,
      before.2.trans (link.splits lawful wf before.1)⟩)
    wf links ⟨exact_, Splits.refl s⟩).2

theorem Links.frames (wf : T.WF s) (links : T.Links I s s') : T.Frames s s' :=
  (Links.keep lawful (Q := T.Frames s) (fun _ _ wf link before => before.trans (link.frames lawful wf))
    wf links (Frames.refl s)).2

end Links

/-! ## Walks -/

theorem alloc_cases {s s' : State} {answer : Option Word} (h : s.alloc = (answer, s')) :
    ∃ supply, (answer = none ∧ s' = { s with supply }) ∨
      ∃ page, answer = some page ∧ s.Usable page ∧ s' = { s with supply }.take page := by
  unfold State.alloc at h
  split at h
  · exact ⟨s.supply, Or.inl ⟨(Prod.mk.inj h).1.symm, (Prod.mk.inj h).2.symm⟩⟩
  · rename_i page supply _
    split at h
    · exact ⟨supply, Or.inr ⟨page, (Prod.mk.inj h).1.symm, by assumption, (Prod.mk.inj h).2.symm⟩⟩
    · exact ⟨supply, Or.inl ⟨(Prod.mk.inj h).1.symm, (Prod.mk.inj h).2.symm⟩⟩

/-- Windows are only used up. -/
theorem Link.race {I : Word → Nat → Prop} {s s' : State} (link : T.Link I s s') :
    ∀ others ∈ s'.race, others ∈ s.race := by
  cases link with
  | answer supply race sub => exact sub
  | install v m r page slot pos bare usable known => exact fun _ h => h
  | lose page p size usable => exact fun _ h => h

theorem Links.raced {I J : Word → Nat → Prop} {s s' : State} (links : T.Links I s s')
    (raced : Raced J s) : Raced J s' := by
  induction links with
  | refl => exact raced
  | tail _ link ih => exact fun others member => ih others (link.race others member)

theorem Links.mono {I J : Word → Nat → Prop} (imp : ∀ v m, I v m → J v m) {s s' : State}
    (links : T.Links I s s') : T.Links J s s' := by
  refine Relation.ReflTransGen.mono (fun a b link => ?_) s s' links
  cases link with
  | answer supply race sub => exact .answer _ supply race sub
  | install v m r page slot pos bare usable known =>
      exact .install _ v m r page slot pos bare usable (imp v m known)
  | lose page p size usable => exact .lose _ page p size usable

/-- What another CPU does is links. -/
theorem interfere_links {I : Word → Nat → Prop} (s : State) (at_ : Word × Nat)
    (known : I at_.1 at_.2) : T.Links I s (T.interfere s at_) ∧ (T.interfere s at_).race = s.race := by
  obtain ⟨v, m⟩ := at_
  unfold interfere
  split
  · exact ⟨.refl, rfl⟩
  · rename_i r slot
    split
    · exact ⟨.refl, rfl⟩
    · exact ⟨.refl, rfl⟩
    · rename_i bare pos
      split
      · rename_i s' h
        obtain ⟨supply, ⟨-, rfl⟩ | ⟨page, e, -⟩⟩ := alloc_cases h
        · exact ⟨.single (.answer s supply s.race fun _ h => h), rfl⟩
        · cases e
      · rename_i page s' h
        obtain ⟨supply, ⟨e, -⟩ | ⟨page', e, usable, rfl⟩⟩ := alloc_cases h
        · cases e
        · obtain rfl := Option.some.inj e
          exact ⟨.tail (.single (.answer s supply s.race fun _ h => h))
            (.install { s with supply } v m r page slot (fun e => pos e) (fun p h => bare p h) usable
              known), rfl⟩

theorem interfere_all_links {I : Word → Nat → Prop} : ∀ (others : List (Word × Nat)) (s : State),
    (∀ at_ ∈ others, I at_.1 at_.2) → T.Links I s (others.foldl T.interfere s) ∧
      (others.foldl T.interfere s).race = s.race
  | [], _, _ => ⟨.refl, rfl⟩
  | at_ :: others, s, known => by
      obtain ⟨first, race⟩ := interfere_links (T := T) s at_ (known at_ List.mem_cons_self)
      obtain ⟨rest, race'⟩ := interfere_all_links others (T.interfere s at_)
        fun at' member => known at' (List.mem_cons_of_mem _ member)
      exact ⟨first.trans rest, race'.trans race⟩

theorem slotAt_down {s : State} {v : Word} {m : Nat} {r : Slot Word entries} {p : Word}
    (slot : T.slotAt s v (m + 1) = some r) (table : T.format.kind (m + 1) (s.load r) = .table p) :
    T.slotAt s v m = some (p, slotIndex v m) := slotOf_down slot table

/-- An entry that a walk replaces holds no table. -/
theorem WF.bare {s : State} (wf : T.WF s) (lawful : T.format.Lawful) {v : Word} {m : Nat}
    {r : Slot Word entries} (slot : T.slotAt s v m = some r)
    (needs : (decide (s.load r = 0#64) || T.format.isLarge m (s.load r)) = true) (p : Word) :
    T.format.kind m (s.load r) ≠ .table p := by
  intro table
  rw [wf.table_small lawful slot table, Bool.or_false, decide_eq_true_eq] at needs
  exact (Format.kind_table_iff.mp table).1 needs

/-- A walk's own installation. -/
theorem install_down (lawful : T.format.Lawful) {s : State} (wf : T.WF s) {v : Word} {m : Nat}
    {r : Slot Word entries} {page : Word} (slot : T.slotAt s v (m + 1) = some r)
    (bare : ∀ p, T.format.kind (m + 1) (s.load r) ≠ .table p) (usable : s.Usable page) :
    T.slotAt (T.install (m + 1) r (s.load r) page (s.take page)) v m =
      some (page, slotIndex v m) := by
  refine slotAt_down (slotAt_install lawful wf slot (Nat.succ_ne_zero m) bare usable slot) ?_
  rw [load_install (m + 1) r _ usable (wf.slot_live slot), if_pos rfl]
  exact (kind_tableEntry lawful (Nat.succ_ne_zero m) (slotAt_le slot) usable.1 usable.2.1).1

section Next

variable (lawful : T.format.Lawful) {I : Word → Nat → Prop} {v : Word} {m : Nat}
  {r : Slot Word entries} {e : Bool}

/-- A level that needs no new table: a hole that may be skipped, or a table. -/
theorem next_idle {race : List (List (Word × Nat))} {s : State} (wf : T.WF s)
    (slot : T.slotAt s v (m + 1) = some r)
    (idle : (decide (s.load r = 0#64) && !e) = true ∨
      ¬ (decide (s.load r = 0#64) || T.format.isLarge (m + 1) (s.load r)) = true)
    {res : Ptr Word} {s' : State} (run : T.next (m + 1) r e race (s.load r) s = (res, s')) :
    s' = s ∧ (∀ page, res = .ptr page → T.slotAt s v m = some (page, slotIndex v m)) ∧
      (res = .hole → e = false ∧ s.load r = 0#64) := by
  rw [next.eq_def] at run
  dsimp only at run
  by_cases skip : (decide (s.load r = 0#64) && !e) = true
  · rw [if_pos skip] at run
    obtain ⟨rfl, rfl⟩ := Prod.mk.inj run
    simp only [Bool.and_eq_true, decide_eq_true_eq, Bool.not_eq_true'] at skip
    exact ⟨rfl, fun _ h => (by cases h), fun _ => ⟨skip.2, skip.1⟩⟩
  · have some := idle.resolve_left skip
    rw [if_neg skip, if_neg some] at run
    obtain ⟨rfl, rfl⟩ := Prod.mk.inj run
    refine ⟨rfl, fun page same => ?_, fun h => (by cases h)⟩
    obtain rfl := Ptr.ptr.inj same
    refine slotAt_down slot ?_
    simp only [Bool.or_eq_true, decide_eq_true_eq, not_or, Bool.not_eq_true] at some
    cases h : T.format.kind (m + 1) (s.load r) with
    | hole => exact absurd (Format.kind_hole h) some.1
    | leaf => exact absurd ((wf.leaf_good slot h).large (Nat.succ_ne_zero m)) (by simp [some.2])
    | table p => rw [(Format.kind_table_iff.mp h).2.2]

include lawful

/-- Allocating a table and installing it. -/
theorem alloc_install {s s1 : State} (wf : T.WF s) (slot : T.slotAt s v (m + 1) = some r)
    (own : I v (m + 1))
    (needs : (decide (s.load r = 0#64) || T.format.isLarge (m + 1) (s.load r)) = true) {page : Word}
    (h : s.alloc = (some page, s1)) :
    T.Links I s (T.install (m + 1) r (s.load r) page s1) ∧
      T.slotAt (T.install (m + 1) r (s.load r) page s1) v m = some (page, slotIndex v m) := by
  obtain ⟨supply, ⟨none, -⟩ | ⟨page', same, usable, rfl⟩⟩ := alloc_cases h
  · cases none
  · obtain rfl := Option.some.inj same
    have bare := wf.bare lawful slot needs
    have answer : T.Link I s { s with supply } := .answer s supply s.race fun _ h => h
    exact ⟨.tail (.single answer) (.install { s with supply } v (m + 1) r page slot
      (Nat.succ_ne_zero m) bare usable own),
      install_down lawful (answer.wf lawful wf) slot bare usable⟩

omit lawful in
theorem alloc_fails {s s1 : State} (h : s.alloc = (none, s1)) : T.Links I s s1 := by
  obtain ⟨supply, ⟨-, rfl⟩ | ⟨page, some, -⟩⟩ := alloc_cases h
  · exact .single (.answer s supply s.race fun _ h => h)
  · cases some

/-- **One level of a walk**: its steps are links, and it ends in the table of the
next level, at a hole that may be skipped, or without memory. -/
theorem next_spec (own : I v (m + 1)) (race : List (List (Word × Nat))) :
    ∀ (s : State) (res : Ptr Word) (s' : State), T.WF s → s.race = race → Raced I s →
      T.slotAt s v (m + 1) = some r → T.next (m + 1) r e race (s.load r) s = (res, s') →
      T.Links I s s' ∧
        (∀ page, res = .ptr page → T.slotAt s' v m = some (page, slotIndex v m)) ∧
        (res = .hole → e = false ∧ T.slotAt s' v (m + 1) = some r ∧ s'.load r = 0#64) := by
  induction race with
  | nil =>
      intro s res s' wf hrace raced slot run
      by_cases idle : (decide (s.load r = 0#64) && !e) = true ∨
          ¬ (decide (s.load r = 0#64) || T.format.isLarge (m + 1) (s.load r)) = true
      · obtain ⟨rfl, down, hole⟩ := next_idle wf slot idle run
        exact ⟨.refl, down, fun h => ⟨(hole h).1, slot, (hole h).2⟩⟩
      · obtain ⟨busy, needs⟩ := not_or.mp idle
        rw [not_not] at needs
        rw [next.eq_def] at run
        dsimp only at run
        rw [if_neg busy, if_pos needs] at run
        split at run
        · rename_i s1 h
          obtain ⟨rfl, rfl⟩ := Prod.mk.inj run
          exact ⟨alloc_fails h, fun _ h => (by cases h), fun h => (by cases h)⟩
        · rename_i page s1 h
          obtain ⟨rfl, rfl⟩ := Prod.mk.inj run
          obtain ⟨links, down⟩ := alloc_install lawful wf slot own needs h
          exact ⟨links, fun q same => Ptr.ptr.inj same ▸ down, fun h => (by cases h)⟩
  | cons others race ih =>
      intro s res s' wf hrace raced slot run
      by_cases idle : (decide (s.load r = 0#64) && !e) = true ∨
          ¬ (decide (s.load r = 0#64) || T.format.isLarge (m + 1) (s.load r)) = true
      · obtain ⟨rfl, down, hole⟩ := next_idle wf slot idle run
        exact ⟨.refl, down, fun h => ⟨(hole h).1, slot, (hole h).2⟩⟩
      · obtain ⟨busy, needs⟩ := not_or.mp idle
        rw [not_not] at needs
        rw [next.eq_def] at run
        dsimp only at run
        rw [if_neg busy, if_pos needs] at run
        -- others act before the exchange
        obtain ⟨theirs, kept⟩ := interfere_all_links (T := T) others { s with race }
          (raced others (hrace ▸ List.mem_cons_self))
        have links : T.Links I s (others.foldl T.interfere { s with race }) :=
          .trans (.single (.answer s s.supply race fun _ h => hrace ▸ List.mem_cons_of_mem _ h)) theirs
        have wf1 := links.wf lawful wf
        have slot1 := links.slotAt lawful wf slot
        have raced1 := links.raced raced
        generalize others.foldl T.interfere { s with race } = s1 at run links wf1 slot1 raced1 kept
        split at run
        · rename_i s2 h
          obtain ⟨rfl, rfl⟩ := Prod.mk.inj run
          exact ⟨links.trans (alloc_fails h), fun _ h => (by cases h), fun h => (by cases h)⟩
        · rename_i page s2 h
          have loads : s2.load r = s1.load r := by
            obtain ⟨supply, ⟨-, rfl⟩ | ⟨page', -, -, rfl⟩⟩ := alloc_cases h <;> rfl
          split at run
          · -- the exchange succeeds
            rename_i unchanged
            rw [loads] at unchanged
            obtain ⟨rfl, rfl⟩ := Prod.mk.inj run
            rw [← unchanged] at needs ⊢
            obtain ⟨more, down⟩ := alloc_install lawful wf1 slot1 own needs h
            exact ⟨links.trans more, fun q same => Ptr.ptr.inj same ▸ down, fun h => (by cases h)⟩
          · -- it fails: the new table goes back, and the loop starts over
            obtain ⟨supply, ⟨none, -⟩ | ⟨page', same, usable, rfl⟩⟩ := alloc_cases h
            · cases none
            · obtain rfl := Option.some.inj same
              have answer : T.Link I s1 { s1 with supply } := .answer s1 supply s1.race fun _ h => h
              have wf2 := answer.wf lawful wf1
              have lose := Link.lose (T := T) (I := I) { s1 with supply } page
                (T.splinter (m + 1) (s.load r)).1 (T.splinter (m + 1) (s.load r)).2 usable
              have load : ((({ s1 with supply }.take page).construct page
                  (T.splinter (m + 1) (s.load r)).1 (T.splinter (m + 1) (s.load r)).2).free
                    page).load r = ({ s1 with supply }.take page).load r :=
                (tree_construct wf2 usable.2.2 _ _).2.2 r (wf2.slot_live slot1)
              rw [← load] at run
              obtain ⟨more, down, hole⟩ := ih _ res s' (lose.wf lawful wf2) kept raced1
                (lose.slotAt lawful wf2 slot1) run
              exact ⟨((links.tail answer).tail lose).trans more, down, hole⟩

end Next

theorem walkFrom_spec (lawful : T.format.Lawful) {I : Word → Nat → Prop} {v : Word} {n : Nat}
    (own : ∀ m, n < m → I v m) {e : Bool} :
    ∀ (l : Nat) (r : Slot Word entries) (s : State) (res : Ptr (Slot Word entries)) (s' : State),
      T.WF s → Raced I s → T.slotAt s v l = some r → n ≤ l → T.walkFrom v n e l r s = (res, s') →
      T.Links I s s' ∧ (∀ q, res = .ptr q → T.slotAt s' v n = some q) ∧
        (res = .hole → e = false ∧ ∃ m q, n < m ∧ T.slotAt s' v m = some q ∧ s'.load q = 0#64)
  | 0, r, s, res, s', wf, raced, slot, hn, run => by
      obtain rfl : n = 0 := Nat.le_zero.mp hn
      simp only [walkFrom, if_true] at run
      obtain ⟨rfl, rfl⟩ := Prod.mk.inj run
      exact ⟨.refl, fun q same => (Ptr.ptr.inj same) ▸ slot, fun h => (by cases h)⟩
  | l + 1, r, s, res, s', wf, raced, slot, hn, run => by
      unfold walkFrom at run
      split at run
      · rename_i target
        obtain ⟨rfl, rfl⟩ := Prod.mk.inj run
        exact ⟨.refl, fun q same => (Ptr.ptr.inj same) ▸ target ▸ slot, fun h => (by cases h)⟩
      · rename_i above
        split at run
        · rename_i page s1 step
          obtain ⟨links, down, -⟩ := next_spec lawful (own (l + 1) (by omega)) s.race s _ s1 wf rfl raced slot step
          obtain ⟨more, found, hole⟩ := walkFrom_spec lawful own l _ s1 res s' (links.wf lawful wf)
            (links.raced raced) (down page rfl) (by omega) run
          exact ⟨links.trans more, found, hole⟩
        · rename_i s1 step
          obtain ⟨links, -, hole⟩ := next_spec lawful (own (l + 1) (by omega)) s.race s _ s1 wf rfl raced slot step
          obtain ⟨rfl, rfl⟩ := Prod.mk.inj run
          obtain ⟨skip, slot', zero⟩ := hole rfl
          exact ⟨links, fun q h => (by cases h), fun _ => ⟨skip, l + 1, r, by omega, slot', zero⟩⟩
        · rename_i s1 step
          obtain ⟨links, -, -⟩ := next_spec lawful (own (l + 1) (by omega)) s.race s _ s1 wf rfl raced slot step
          obtain ⟨rfl, rfl⟩ := Prod.mk.inj run
          exact ⟨links, fun q h => (by cases h), fun h => (by cases h)⟩

/-- **A walk**: links, then the slot it was to find, a hole above it, or no memory. -/
theorem walk_spec (lawful : T.format.Lawful) {I : Word → Nat → Prop} {s s' : State} (wf : T.WF s)
    (raced : Raced I s) {v : Word} {n : Nat} (own : ∀ m, n < m → I v m) (hn : n ≤ T.format.lev) {e : Bool} {res : Ptr (Slot Word entries)}
    (run : T.walk v n e s = (res, s')) :
    T.Links I s s' ∧ (∀ q, res = .ptr q → T.slotAt s' v n = some q) ∧
      (res = .hole → e = false ∧ ∃ m q, n < m ∧ T.slotAt s' v m = some q ∧ s'.load q = 0#64) :=
  walkFrom_spec lawful own T.format.lev T.root s res s' wf raced (slotOf_self _ _ _ _) hn run

end Pagetable

end Nova.Kernel
