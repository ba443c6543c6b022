/-
# Nova.Kernel.ShareFrom — an entry of one host page table is copied to another

`Hptp::share_from` of `src/x86_64/ptab_hpt.cpp` walks down to a level that two
addresses determine, in the destination with new tables, in the source without, and
copies the entry.  `Shared` says what that is for: afterwards the two page tables
agree on the whole slot, and nothing else has changed in either of them.

`share_from` takes the walk in the source for a query that returns an entry or
`nullptr`.  It is neither: below an empty slot it returns `~0UL`, which is then read
through, and below a large leaf it installs tables in the source.  `shared_iff`
says that this is all that can go wrong: `Shared` holds exactly if the destination
runs out of memory first, or neither of the two covers the address in the source.
A fault in the I/O bitmap of a space without one meets the empty slot
(`not_shared_bitmap`).
-/
import Nova.Kernel.PtabTransparent
import Nova.Kernel.PtabShare

namespace Nova.Kernel

open Nova.Theory.Words
open Nova.Theory.Radix

set_option autoImplicit false

/-- `k` allocations in a row succeed. -/
def State.lasts : Nat → State → Bool
  | 0, _ => true
  | k + 1, s =>
      match s.alloc with
      | (none, _) => false
      | (some _, s') => s'.lasts k

/-- `(bit_scan_reverse (v ^ o) - PAGE_BITS) / bpl` -/
def shareLevel (v o : Word) : Nat := ((v ^^^ o).toNat.log2 - pageBits) / bpl

/-- The quotient is a level: not negative, and not beyond the root. -/
structure Level (v o : Word) : Prop where
  low : 2 ^ 4 ≤ (v ^^^ o).toNat
  high : (v ^^^ o).toNat < 2 ^ 57

theorem Level.le {v o : Word} (level : Level v o) : shareLevel v o ≤ 4 := by
  have low := level.low
  have log : (v ^^^ o).toNat.log2 < 57 := (Nat.log2_lt (by omega)).mpr level.high
  simp only [shareLevel, pageBits, bpl]
  omega

namespace Pagetable

variable (T : Pagetable)

/-- How many tables a walk to level `n` lacks -/
def missing (s : State) (v : Word) (n : Nat) : Nat := (T.find s v).1 - n

/-- The entries of the page table -/
def Cell (s : State) (q : Slot Word entries) : Prop := q = T.root ∨ q.1 ∈ (T.tree s).pages

/-- A destination and a source, both well-formed.  They may have tables in common, but not on the way to the slot of
level `l`; a CPU's page table is walked by that CPU only. -/
structure Pair (T src : Pagetable) (v : Word) (l : Nat) (s : State) : Prop where
  dst : T.WF s
  exact_ : T.Exact s
  source : src.WF s
  apart : ∀ m q, l ≤ m → T.slotAt s v m = some q → ¬ src.Cell s q
  alone : s.race = []

/-- What `share_from` is for.  -/
def Shared (T src : Pagetable) (v o : Word) (s : State) : Prop :=
  let l := shareLevel v o
  let s1 := (T.walk v l true s).2
  -- only entries are read and written
  ∃ b s', T.shareFrom src v o s = some (b, s') ∧
    (∀ q, src.Cell s q → s'.load q = s.load q) ∧
    -- without an allocation failure the two agree on the slot
    (((T.walk v l true s).1 = .null ∨ (src.walk v l false s1).1 = .null) ∧ b = false ∨
      ∀ x, T.SameSlot l x v → ∀ ca sh, T.lookup x ca sh s' = src.lookup x ca sh s') ∧
    (∀ x, ¬ T.SameSlot l x v → ∀ ca sh, (T.lookup x ca sh s').Agrees (T.lookup x ca sh s)) ∧
    ∀ d, T.slotAt s1 v l = some d → (b = true ↔ s'.load d ≠ s1.load d)

variable {T}

/-! ## Allocations -/

theorem lasts_congr {s t : State} (live : t.live = s.live) (supply : t.supply = s.supply) (k : Nat) :
    t.lasts k = s.lasts k := by
  induction k generalizing s t with
  | zero => rfl
  | succ k ih =>
      have usable : ∀ page, t.Usable page ↔ s.Usable page := fun page => by simp [State.Usable, live]
      unfold State.lasts State.alloc
      rw [supply]
      cases s.supply with
      | nil => rfl
      | cons page rest =>
          by_cases good : s.Usable page
          · simp only [if_pos good, if_pos ((usable page).mpr good)]
            exact ih (by simp [State.take, live]) rfl
          · simp only [if_neg good, if_neg fun h => good ((usable page).mp h)]

theorem lasts_succ {s s1 : State} {page : Word} (h : s.alloc = (some page, s1)) (k : Nat) :
    s.lasts (k + 1) = s1.lasts k := by
  rw [State.lasts, h]

theorem lasts_none {s s1 : State} (h : s.alloc = (none, s1)) (k : Nat) : s.lasts (k + 1) = false := by
  rw [State.lasts, h]

/-! ## The walk in the destination -/

/-- A search ends at the slot of a level or below it. -/
theorem find_le_slot {s : State} {v : Word} {m : Nat} {q : Slot Word entries} (slot : T.slotAt s v m = some q) :
    (T.find s v).1 ≤ m := by
  rw [find_slot slot fun _ _ _ => rfl]
  exact Tree.find_level_le _ _ _

/-- A search ends at a slot without a table. -/
theorem find_bare {s : State} {v : Word} {m : Nat} {q : Slot Word entries} (slot : T.slotAt s v m = some q)
    (bare : ∀ p, T.format.kind m (s.load q) ≠ .table p) : (T.find s v).1 = m := by
  rw [find_slot slot fun _ _ _ => rfl, treeOf_bare m bare]
  split <;> rfl

/-- A level that needs a table, while no other CPU acts on the page table -/
theorem next_alone {s : State} (alone : s.race = []) {l : Nat} {r : Slot Word entries} {e : Bool}
    (busy : (decide (s.load r = 0#64) && !e) = false)
    (needs : (decide (s.load r = 0#64) || T.format.isLarge l (s.load r)) = true) :
    T.next l r e s.race (s.load r) s =
      match s.alloc with
      | (none, s') => (.null, s')
      | (some page, s') => (.ptr page, T.install l r (s.load r) page s') := by
  rw [alone, next.eq_def]
  cases h : s.alloc with
  | mk answer s' => cases answer <;> simp [busy, needs, h]

/-- An entry without a table is empty or a large page. -/
theorem WF.needs {s : State} (wf : T.WF s) {v : Word} {l : Nat} {r : Slot Word entries} (slot : T.slotAt s v l = some r)
    (pos : l ≠ 0) (bare : ∀ p, T.format.kind l (s.load r) ≠ .table p) :
    (decide (s.load r = 0#64) || T.format.isLarge l (s.load r)) = true := by
  by_cases zero : s.load r = 0#64
  · simp [zero]
  · have large := (wf.leaf_good slot (leaf_of_bare bare zero)).large pos
    simp [large]

/-- What a walk that lacks `k` tables does beside other data, `Kept` -/
structure Alone (Kept : Slot Word entries → Prop) (s : State) (k : Nat) (r : Ptr (Slot Word entries) × State) : Prop where
  cells : ∀ q, Kept q → r.2.load q = s.load q
  live : ∀ page ∈ s.live, page ∈ r.2.live
  race : r.2.race = []
  null : r.1 = .null ↔ s.lasts k = false
  slot : ∀ d, r.1 = .ptr d → ¬ Kept d
  more : s.lasts k = true → r.2.lasts 1 = s.lasts (k + 1)

theorem walkFrom_alone (lawful : T.format.Lawful) {v : Word} {n : Nat} {Kept : Slot Word entries → Prop} :
    ∀ (l : Nat) (r : Slot Word entries) (s : State), T.WF s → s.race = [] → T.slotAt s v l = some r → n ≤ l →
      (∀ q, Kept q → q.1 ∈ s.live) →
      (∀ m q, n ≤ m → m ≤ l → T.slotAt s v m = some q → ¬ Kept q) →
      Alone Kept s (T.missing s v n) (T.walkFrom v n true l r s)
  | l, r, s, wf, alone, slot, le, live, apart => by
      by_cases here : l = n
      · subst here
        have none : T.missing s v l = 0 := Nat.sub_eq_zero_of_le (find_le_slot slot)
        have run : T.walkFrom v l true l r s = (.ptr r, s) := by cases l <;> simp [walkFrom]
        rw [run, none]
        refine ⟨fun _ _ => rfl, fun _ h => h, alone, iff_of_false (by rintro ⟨⟩) (by simp [State.lasts]), fun d same => ?_, fun _ => rfl⟩
        obtain rfl := Ptr.ptr.inj same
        exact apart l _ le (le_refl l) slot
      · obtain ⟨k, rfl⟩ : ∃ k, l = k + 1 := ⟨l - 1, by omega⟩
        by_cases table : ∃ p, T.format.kind (k + 1) (s.load r) = .table p
        · obtain ⟨p, table⟩ := table
          rw [walkFrom, if_neg here, next_table lawful wf slot table]
          exact walkFrom_alone lawful k _ s wf alone (slotAt_down slot table) (by omega) live
            fun m q low high => apart m q low (by omega)
        · have bare : ∀ p, T.format.kind (k + 1) (s.load r) ≠ .table p := fun p h => table ⟨p, h⟩
          have needs := wf.needs slot (Nat.succ_ne_zero k) bare
          have level := find_bare slot bare
          have lacks : T.missing s v n = (k - n) + 1 := by
            unfold missing
            omega
          rw [walkFrom, if_neg here, next_alone alone (by simp) needs, lacks]
          cases h : s.alloc with
          | mk answer s1 =>
              obtain ⟨supply, ⟨rfl, rfl⟩ | ⟨page, rfl, usable, rfl⟩⟩ := alloc_cases h
              · -- no memory
                have fails := lasts_none h (k - n)
                exact ⟨fun _ _ => rfl, fun _ h => h, alone, iff_of_true rfl fails, by rintro _ ⟨⟩,
                  fun lasts => by rw [fails] at lasts; cases lasts⟩
              · obtain ⟨links, down⟩ := alloc_install (I := Anywhere) lawful wf slot trivial needs h
                have kept : ∀ q, Kept q → (T.install (k + 1) r (s.load r) page ({ s with supply }.take page)).load q =
                    s.load q := by
                  intro q here
                  have other : q ≠ r := fun same => apart (k + 1) r le (le_refl _) slot (same ▸ here)
                  have loaded := load_install (T := T) (s := { s with supply }) (k + 1) r (s.load r) usable (live q here)
                  rw [if_neg other] at loaded
                  exact loaded
                have frames := links.frames lawful wf
                have lower : (T.find (T.install (k + 1) r (s.load r) page ({ s with supply }.take page)) v).1 = k := by
                  have answer : T.Link Anywhere s { s with supply } := .answer s supply s.race fun _ h => h
                  rcases find_install lawful (answer.wf lawful wf) slot (Nat.succ_ne_zero k) bare usable v with
                    ⟨-, ⟨-, after⟩ | ⟨-, -, after⟩⟩ | same
                  · exact congrArg Prod.fst after
                  · exact congrArg Prod.fst after
                  · have above : (T.find s v).1 ≤ k :=
                      le_of_eq_of_le (congrArg Prod.fst same).symm (find_le_slot down)
                    omega
                have rest := walkFrom_alone lawful (n := n) k _ _ (links.wf lawful wf) alone down (by omega)
                  (fun q here => frames.live _ (live q here)) fun m q low high at_ => by
                    have bound := find_le_slot at_
                    obtain rfl : m = k := by omega
                    obtain rfl := Option.some.inj (down.symm.trans at_)
                    exact fun here => usable.2.2 (live _ here)
                have fewer : T.missing (T.install (k + 1) r (s.load r) page ({ s with supply }.take page)) v n = k - n := by
                  unfold missing
                  omega
                have same : ∀ j, s.lasts (j + 1) =
                    (T.install (k + 1) r (s.load r) page ({ s with supply }.take page)).lasts j := fun j => by
                  rw [lasts_succ h]
                  exact (lasts_congr (s := ({ s with supply }.take page))
                    (t := T.install (k + 1) r (s.load r) page ({ s with supply }.take page)) rfl rfl j).symm
                rw [fewer] at rest
                refine ⟨fun q here => (rest.cells q here).trans (kept q here), fun q h => rest.live q (frames.live q h),
                  rest.race, ?_, rest.slot, fun lasts => ?_⟩
                · rw [same]
                  exact rest.null
                · rw [same] at lasts ⊢
                  exact rest.more lasts

/-! ## The source meanwhile -/

section Source

variable {s s' : State} {v : Word} {n : Nat}

theorem slotAt_cell {m : Nat} {q : Slot Word entries} (slot : T.slotAt s v m = some q) : T.Cell s q :=
  (slotAt_owner slot).imp And.right And.right

theorem Cell.live (wf : T.WF s) {q : Slot Word entries} (cell : T.Cell s q) : q.1 ∈ s.live := by
  rcases cell with rfl | member
  · exact wf.root_live
  · exact wf.owned _ member

variable (kept : ∀ q, T.Cell s q → s'.load q = s.load q)
include kept

theorem mem_kept : ∀ page ∈ (T.tree s).pages, s'.mem page = s.mem page := fun page member =>
  funext fun i => kept (page, i) (Or.inr member)

theorem tree_kept : T.tree s' = T.tree s := by
  unfold tree
  rw [kept T.root (Or.inl rfl)]
  exact treeOf_congr _ _ (mem_kept kept)

theorem slotAt_kept (m : Nat) : T.slotAt s' v m = T.slotAt s v m :=
  slotOf_congr (fun _ => kept T.root (Or.inl rfl)) (mem_kept kept)

theorem wf_kept (live : ∀ page ∈ s.live, page ∈ s'.live) (wf : T.WF s) : T.WF s' := by
  have same := tree_kept kept
  have root := kept T.root (Or.inl rfl)
  exact ⟨same ▸ wf.nodup, fun page member => live page (wf.owned page (same ▸ member)), live _ wf.root_live,
    same ▸ wf.root_apart, same ▸ wf.leaves, root ▸ wf.root_small⟩

theorem cell_kept (q : Slot Word entries) : T.Cell s' q ↔ T.Cell s q := by
  unfold Cell
  rw [tree_kept kept]

theorem holeAbove_kept : T.HoleAbove s' v n ↔ T.HoleAbove s v n := by
  refine exists_congr fun m => exists_congr fun q => and_congr_right fun _ => ?_
  rw [slotAt_kept kept]
  exact and_congr_right fun slot => by rw [kept q (slotAt_cell slot)]

theorem leafAbove_kept : T.LeafAbove s' v n ↔ T.LeafAbove s v n := by
  refine exists_congr fun m => exists_congr fun q => and_congr_right fun _ => ?_
  rw [slotAt_kept kept]
  exact and_congr_right fun slot => by rw [kept q (slotAt_cell slot)]

end Source

/-! ## The walk in the source -/

/-- A table in a slot stays when further tables are installed. -/
theorem Link.table {I : Word → Nat → Prop} {s s' : State} (wf : T.WF s) (link : T.Link I s s') {v : Word} {m : Nat} {q : Slot Word entries} {p : Word} (slot : T.slotAt s v m = some q)
    (table : T.format.kind m (s.load q) = .table p) : T.format.kind m (s'.load q) = .table p := by
  cases link with
  | answer supply race sub => exact table
  | install u k r page slot' pos bare usable known =>
      rw [load_install k r _ usable (wf.slot_live slot)]
      split
      · -- the slot of the new table held none
        rename_i same
        subst same
        obtain rfl : m = k := slotOf_level wf.nodup wf.root_apart slot slot'
        exact absurd table (bare p)
      · exact table
  | lose page p' size usable =>
      have load := (tree_construct wf usable.2.2 p' size).2.2 q (wf.slot_live slot)
      rw [show (((s.take page).construct page p' size).free page).load q = s.load q from load]
      exact table

/-- **A large leaf in the way** of a walk that makes holes: without memory the walk fails, with memory it replaces the
leaf. -/
theorem walk_leaf (lawful : T.format.Lawful) {s : State} (wf : T.WF s) (alone : s.race = []) {v : Word} {n : Nat}
    (leaf : T.LeafAbove s v n) :
    (s.lasts 1 = false → ∃ supply, T.walk v n false s = (.null, { s with supply })) ∧
      (s.lasts 1 = true → ∃ q, T.Cell s q ∧ (T.walk v n false s).2.load q ≠ s.load q) := by
  obtain ⟨m, q, above, slot, leaf⟩ := leaf
  obtain ⟨k, rfl⟩ : ∃ k, m = k + 1 := ⟨m - 1, by omega⟩
  have bare : ∀ p, T.format.kind (k + 1) (s.load q) ≠ .table p := fun p table => by rw [leaf] at table; cases table
  have needs := wf.needs slot (Nat.succ_ne_zero k) bare
  have busy : (decide (s.load q = 0#64) && !false) = false := by
    have ne : s.load q ≠ 0#64 := (Format.kind_leaf_iff.mp leaf).1
    simp [ne]
  rw [walk_skip lawful wf false (by omega) slot, walkFrom, if_neg (by omega), next_alone alone busy needs]
  cases h : s.alloc with
  | mk answer s1 =>
      obtain ⟨supply, ⟨rfl, rfl⟩ | ⟨page, rfl, usable, rfl⟩⟩ := alloc_cases h
      · exact ⟨fun _ => ⟨supply, rfl⟩, fun lasts => by rw [lasts_none h] at lasts; cases lasts⟩
      · refine ⟨fun lasts => (by rw [lasts_succ h] at lasts; cases lasts), fun _ => ⟨q, slotAt_cell slot, ?_⟩⟩
        obtain ⟨links, down⟩ := alloc_install (I := Anywhere) lawful wf slot trivial needs h
        have wf1 := links.wf lawful wf
        have slot1 := links.slotAt lawful wf slot
        have table : T.format.kind (k + 1)
            ((T.install (k + 1) q (s.load q) page ({ s with supply }.take page)).load q) = .table page := by
          rw [load_install (T := T) (s := { s with supply }) (k + 1) q _ usable (wf.slot_live slot), if_pos rfl]
          exact (kind_tableEntry lawful (Nat.succ_ne_zero k) (slotAt_le slot) usable.1 usable.2.1).1
        dsimp only
        generalize T.install (k + 1) q (s.load q) page ({ s with supply }.take page) = s1 at *
        obtain ⟨more, -, -⟩ := walkFrom_spec lawful (I := Anywhere) (fun _ _ => trivial) k _ s1 _ _ wf1
          (raced_anywhere s1) down (by omega)
          (show T.walkFrom v n false k (page, slotIndex v k) s1 = ((T.walkFrom v n false k (page, slotIndex v k) s1).1,
            (T.walkFrom v n false k (page, slotIndex v k) s1).2) from rfl)
        have stays := Links.keep lawful
          (Q := fun a => T.slotAt a v (k + 1) = some q ∧ T.format.kind (k + 1) (a.load q) = .table page)
          (fun _ _ wf link before => ⟨link.slotAt lawful wf before.1, link.table wf before.1 before.2⟩)
          wf1 more ⟨slot1, table⟩
        intro same
        exact bare page (same ▸ stays.2.2)

/-! ## The copy -/

theorem store_same (s : State) (r : Slot Word entries) : s.store r (s.load r) = s :=
  congrArg (fun mem => { s with mem }) (write_same s.mem r)

/-- **An entry is copied** between page tables of one format. -/
theorem copy_spec {src : Pagetable} (lawful : T.format.Lawful) (same : src.format = T.format) {s : State} (wf : T.WF s)
    {v : Word} {l : Nat} {d r : Slot Word entries} (slot : T.slotAt s v l = some d)
    (from_ : src.slotAt s v l = some r) (other : ¬ src.Cell s d) :
    (∀ q, src.Cell s q → (s.store d (s.load r)).load q = s.load q) ∧
      (∀ x, T.SameSlot l x v → ∀ ca sh, T.lookup x ca sh (s.store d (s.load r)) =
        src.lookup x ca sh (s.store d (s.load r))) ∧
      ∀ x, ¬ T.SameSlot l x v → ∀ ca sh, T.lookup x ca sh (s.store d (s.load r)) = T.lookup x ca sh s := by
  have kept : ∀ q, src.Cell s q → (s.store d (s.load r)).load q = s.load q := fun q cell =>
    write_ne _ _ _ fun e => other (e ▸ cell)
  have tree := tree_store wf.nodup wf.root_apart slot (s.load r)
  refine ⟨kept, fun x here ca sh => ?_, fun x there ca sh => ?_⟩
  · have mine : T.find (s.store d (s.load r)) x = Tree.find (slotIndex x) l
        (treeOf T.format.kind (s.store d (s.load r)).mem l (s.load r)) := by
      rw [find, tree, Tree.find_modify_same _ _ _ (reaches_slot slot) here (slotAt_le slot)]
    have here' : src.SameSlot l x v := by
      unfold SameSlot
      rw [same]
      exact here
    have theirs : src.find (s.store d (s.load r)) x = Tree.find (slotIndex x) l
        (treeOf T.format.kind (s.store d (s.load r)).mem l (s.load r)) := by
      rw [find_slot ((slotAt_kept kept l).trans from_) here', kept r (slotAt_cell from_), same]
    rw [lookup_eq lawful, lookup_eq (same ▸ lawful), mine, theirs, same]
  · have differ : ∃ k, l ≤ k ∧ k < T.format.lev ∧ slotIndex x k ≠ slotIndex v k := by
      simpa only [SameSlot, not_forall, exists_prop] using there
    rw [lookup_eq lawful, lookup_eq lawful, find, tree, Tree.find_modify_other _ _ _ differ]
    rfl

/-! ## Sharing -/

section Sharing

variable {src : Pagetable} {v o : Word} {s s1 : State}

theorem level_fits (format : T.format = hptX86) (level : Level v o) : shareLevel v o ≤ T.format.lev := by
  rw [format]
  exact level.le

/-- The walk in the destination leaves the source alone. -/
theorem Pair.alone_walk (format : T.format = hptX86) (level : Level v o) (pair : Pair T src v (shareLevel v o) s) :
    Alone (src.Cell s) s (T.missing s v (shareLevel v o)) (T.walk v (shareLevel v o) true s) :=
  walkFrom_alone (format ▸ hptX86_lawful) T.format.lev T.root s pair.dst pair.alone (slotOf_self _ _ _ _)
    (level_fits format level) (fun _ cell => cell.live pair.source) fun m q low _ slot => pair.apart m q low slot

/-- Beside the slot of the destination only the walks change anything. -/
theorem shareFrom_load {d : Slot Word entries} {b : Bool} {s' : State}
    (walked : T.walk v (shareLevel v o) true s = (.ptr d, s1)) (run : T.shareFrom src v o s = some (b, s'))
    (q : Slot Word entries) (other : q ≠ d) : s'.load q = (src.walk v (shareLevel v o) false s1).2.load q := by
  simp only [shareFrom, ← shareLevel.eq_def, walked] at run
  cases walked' : src.walk v (shareLevel v o) false s1 with
  | mk answer s2 =>
      rw [walked'] at run
      cases answer with
      | hole => cases run
      | null =>
          obtain ⟨-, rfl⟩ := Prod.mk.inj (Option.some.inj run)
          rfl
      | ptr r =>
          by_cases equal : s2.load d = s2.load r
          · simp only [if_pos equal] at run
            obtain ⟨-, rfl⟩ := Prod.mk.inj (Option.some.inj run)
            rfl
          · simp only [if_neg equal] at run
            obtain ⟨-, rfl⟩ := Prod.mk.inj (Option.some.inj run)
            exact write_ne _ _ _ other

/-- A walk fails: nothing is copied. -/
theorem Pair.shared_null (format : T.format = hptX86) {l : Nat} (pair : Pair T src v l s)
    (links : T.Links Anywhere s (T.walk v (shareLevel v o) true s).2)
    (kept : ∀ q, src.Cell s q → (T.walk v (shareLevel v o) true s).2.load q = s.load q) (supply : List Word)
    (null : (T.walk v (shareLevel v o) true s).1 = .null ∨
      (src.walk v (shareLevel v o) false (T.walk v (shareLevel v o) true s).2).1 = .null)
    (run : T.shareFrom src v o s = some (false, { (T.walk v (shareLevel v o) true s).2 with supply })) :
    T.Shared src v o s := by
  refine ⟨false, _, run, kept, Or.inl ⟨null, rfl⟩, fun x _ ca sh => ?_, fun d _ => ?_⟩
  · exact links.agrees (format ▸ hptX86_lawful) pair.dst pair.exact_ x ca sh
  · exact iff_of_false nofun fun ne => ne rfl

/-- Both walks reach their slots: the entry is copied. -/
theorem Pair.shared_copy (format : T.format = hptX86) (source : src.format = hptX86)
    (pair : Pair T src v (shareLevel v o) s) {d r : Slot Word entries}
    (alone : Alone (src.Cell s) s (T.missing s v (shareLevel v o)) (.ptr d, s1))
    (links : T.Links Anywhere s s1) (walked : T.walk v (shareLevel v o) true s = (.ptr d, s1))
    (slot : T.slotAt s1 v (shareLevel v o) = some d) (from_ : src.slotAt s1 v (shareLevel v o) = some r)
    (walked' : src.walk v (shareLevel v o) false s1 = (.ptr r, s1)) : T.Shared src v o s := by
  have lawful : T.format.Lawful := format ▸ hptX86_lawful
  have other : ¬ src.Cell s1 d := fun cell => alone.slot d rfl ((cell_kept alone.cells d).mp cell)
  obtain ⟨kept, inside, outside⟩ := copy_spec lawful (source.trans format.symm) (links.wf lawful pair.dst) slot from_ other
  have run : T.shareFrom src v o s =
      some (decide (s1.load d ≠ s1.load r), s1.store d (s1.load r)) := by
    simp only [shareFrom, ← shareLevel.eq_def, walked, walked']
    by_cases equal : s1.load d = s1.load r
    · rw [if_pos equal, ← equal, store_same]
      simp
    · rw [if_neg equal]
      simp [equal]
  refine ⟨_, _, run, fun q cell => ?_, Or.inr inside, fun x there ca sh => ?_, fun d' slot' => ?_⟩
  · rw [kept q ((cell_kept alone.cells q).mpr cell)]
    exact alone.cells q cell
  · rw [outside x there]
    exact links.agrees lawful pair.dst pair.exact_ x ca sh
  · rw [walked] at slot' ⊢
    obtain rfl := Option.some.inj (slot.symm.trans slot')
    rw [decide_eq_true_iff, show (s1.store d (s1.load r)).load d = s1.load r from write_self _ _ _]
    exact ne_comm

end Sharing

end Pagetable

open Pagetable

/-- **What `share_from` is for holds exactly if a walk runs out of memory first, or nothing else covers the address in
the source above the level**: an empty slot there is read through, a large leaf is replaced. -/
theorem shared_iff {T src : Pagetable} (format : T.format = hptX86) (source : src.format = hptX86) {v o : Word}
    (level : Level v o) {s : State} (pair : Pair T src v (shareLevel v o) s) :
    T.Shared src v o s ↔ s.lasts (T.missing s v (shareLevel v o)) = false ∨
      ¬ src.HoleAbove s v (shareLevel v o) ∧
        (src.LeafAbove s v (shareLevel v o) → s.lasts (T.missing s v (shareLevel v o) + 1) = false) := by
  have lawful : T.format.Lawful := format ▸ hptX86_lawful
  have lawful' : src.format.Lawful := source ▸ hptX86_lawful
  have alone := pair.alone_walk format level
  obtain ⟨links, found, hole⟩ := walk_spec lawful pair.dst (raced_anywhere s) (fun _ _ => trivial) (level_fits format level)
    (show T.walk v (shareLevel v o) true s = ((T.walk v (shareLevel v o) true s).1,
      (T.walk v (shareLevel v o) true s).2) from rfl)
  cases walked : T.walk v (shareLevel v o) true s with
  | mk answer s1 =>
  simp only [walked] at alone links found hole
  cases answer with
  | null =>
      -- the destination runs out of memory
      have run : T.shareFrom src v o s = some (false, { s1 with supply := s1.supply }) := by
        simp only [shareFrom, ← shareLevel.eq_def, walked]
      refine iff_of_true ?_ (Or.inl (alone.null.mp rfl))
      refine pair.shared_null format (by rw [walked]; exact links) (by rw [walked]; exact alone.cells)
        s1.supply (Or.inl (by rw [walked])) (by rw [walked]; exact run)
  | hole => exact absurd (hole rfl).1 nofun
  | ptr d =>
      have lasts : s.lasts (T.missing s v (shareLevel v o)) = true := by
        rw [← Bool.not_eq_false, ← alone.null]
        exact nofun
      have source1 := wf_kept alone.cells alone.live pair.source
      have le : shareLevel v o ≤ src.format.lev := level_fits source level
      by_cases empty : src.HoleAbove s v (shareLevel v o)
      · -- the walk in the source returns `~0UL`
        have missed := walk_hole lawful' source1 ((holeAbove_kept alone.cells).mpr empty)
        have run : T.shareFrom src v o s = none := by
          simp only [shareFrom, ← shareLevel.eq_def, walked, missed]
        refine iff_of_false ?_ ?_
        · rintro ⟨b, s', some_, -⟩
          rw [run] at some_
          cases some_
        · rintro (fails | ⟨none_, -⟩)
          · rw [lasts] at fails
            cases fails
          · exact none_ empty
      · by_cases leaf : src.LeafAbove s v (shareLevel v o)
        · -- it splinters the leaf, if it can
          obtain ⟨fails, splinters⟩ := walk_leaf lawful' source1 alone.race ((leafAbove_kept alone.cells).mpr leaf)
          rw [alone.more lasts] at fails splinters
          cases more : s.lasts (T.missing s v (shareLevel v o) + 1) with
          | false =>
              obtain ⟨supply, failed⟩ := fails more
              refine iff_of_true ?_ (Or.inr ⟨empty, fun _ => rfl⟩)
              refine pair.shared_null format (by rw [walked]; exact links) (by rw [walked]; exact alone.cells)
                supply (Or.inr (by rw [walked, failed])) ?_
              simp only [shareFrom, ← shareLevel.eq_def, walked, failed]
          | true =>
              obtain ⟨q, cell, changed⟩ := splinters more
              have mine := (cell_kept alone.cells q).mp cell
              refine iff_of_false ?_ ?_
              · rintro ⟨b, s', run, same, -⟩
                have load := shareFrom_load walked run q fun e => alone.slot d rfl (e ▸ mine)
                exact changed (load.symm.trans ((same q mine).trans (alone.cells q mine).symm))
              · rintro (fails | ⟨-, fails⟩)
                · rw [lasts] at fails
                  cases fails
                · cases fails leaf
        · -- it reaches the slot
          obtain ⟨r, from_⟩ := ((slot_or_above src.format.lev src.root (slotOf_self _ _ _ _) le).resolve_right
            (not_or.mpr ⟨mt (holeAbove_kept alone.cells).mp empty, mt (leafAbove_kept alone.cells).mp leaf⟩))
          refine iff_of_true ?_ (Or.inr ⟨empty, fun above => absurd above leaf⟩)
          exact pair.shared_copy format source alone links walked (found d rfl) from_
            (walk_reached lawful' source1 false from_)

open HostSpace

/-- A destination without any table -/
theorem Pagetable.Pair.of_empty {T src : Pagetable} (lawful : T.format.Lawful) {s : State} {v : Word} {l : Nat}
    (zero : s.load T.root = 0#64) (live : T.root.1 ∈ s.live) (source : src.WF s) (other : ¬ src.Cell s T.root)
    (alone : s.race = []) : Pair T src v l s := by
  have tree : T.tree s = .hole := by
    unfold tree
    rw [zero]
    exact treeOf_hole _ (Format.kind_zero _ _)
  refine ⟨⟨?_, ?_, live, ?_, ?_, ?_⟩, ?_, source, fun m q _ slot => ?_, alone⟩
  · rw [tree]; exact List.nodup_nil
  · rw [tree]; exact fun _ h => absurd h List.not_mem_nil
  · rw [tree]; exact List.not_mem_nil
  · rw [tree]; trivial
  · rw [zero]; exact lawful.root_large
  · unfold Exact
    rw [tree]
    trivial
  · rcases slotAt_owner slot with ⟨-, rfl⟩ | ⟨-, member⟩
    · exact other
    · rw [tree] at member
      exact absurd member List.not_mem_nil

theorem newborn_pair (v : Word) (l : Nat) : Pair (oneCpu.loc ()) oneCpu.hptp v l newborn := by
  obtain ⟨page, tree⟩ := newborn_created.empty
  refine .of_empty hptX86_lawful rfl (by decide) (newborn_created.sound.wf ()) (fun cell => ?_) rfl
  rcases cell with same | member
  · exact absurd same (by decide)
  · exact (newborn_created.object ()).apart () member

/-- A user page fault at address 0: the page table of the CPU gets the entry of level 3. -/
theorem shared_iff_fault : (oneCpu.loc ()).Shared oneCpu.hptp 0#64 userEnd newborn := by
  have level : Level 0#64 userEnd := ⟨by decide, by decide⟩
  refine (shared_iff rfl rfl level (newborn_pair _ _)).mpr (Or.inr ⟨?_, fun leaf => absurd leaf ?_⟩)
  · rintro ⟨m, q, above, slot, zero⟩
    have three : shareLevel 0#64 userEnd = 3 := share_level (by decide)
    have le : m ≤ 4 := slotAt_le slot
    obtain rfl : m = 4 := by omega
    obtain rfl : oneCpu.hptp.root = q := Option.some.inj ((slotOf_self _ _ _ _).symm.trans slot)
    exact absurd zero (by decide)
  · exact not_leafAbove_top (newborn_created.sound.wf ()) (by decide)

/-- **A fault in the I/O bitmap of a space without one.** -/
theorem not_shared_bitmap : Level 0xffffffffc0000000#64 0xffffffffb0000000#64 ∧
    Pair (oneCpu.loc ()) oneCpu.hptp 0xffffffffc0000000#64
      (shareLevel 0xffffffffc0000000#64 0xffffffffb0000000#64) newborn ∧
    ¬ (oneCpu.loc ()).Shared oneCpu.hptp 0xffffffffc0000000#64 0xffffffffb0000000#64 newborn := by
  refine ⟨⟨by decide, by decide⟩, newborn_pair _ _, ?_⟩
  rintro ⟨b, s', run, -⟩
  have none_ : ((oneCpu.loc ()).shareFrom oneCpu.hptp 0xffffffffc0000000#64 0xffffffffb0000000#64
      newborn).isNone = true := by decide +kernel
  rw [run] at none_
  cases none_

end Nova.Kernel
