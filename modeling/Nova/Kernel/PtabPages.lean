/-
# Nova.Kernel.PtabPages — where the pages of a page table go

Every page that `Table::operator new` obtains should be in one of three places:
in the tree, handed to `Buddy::wait` because an update replaced the subtree it
belongs to, or handed to `Buddy::free` because another CPU was faster.
`Conserved` says so for the three logs of the state.

`Table::deallocate (l)` returns at `l = 0` before it gives up its own page, so a
table whose slots have level 0 is lost when an entry that refers to it is
replaced (`exchange_leaks`).  What is above the lowest level is accounted for:
`deallocate_perm` on a tree without such tables, and `conserved_of_spares` along
every run whose updates meet none.
-/
import Nova.Kernel.PtabLimit

namespace Nova.Kernel

open Nova.Theory.Words
open Nova.Theory.Radix
open Nova.Theory.Runs

set_option autoImplicit false

namespace Pagetable

variable (T : Pagetable)

/-- The pages obtained are those of the tree, those that were handed to the wait
list and those that were freed, each counted as often as it was obtained. -/
def Balanced (s : State) : Prop := s.obtained.Perm ((T.tree s).pages ++ (s.waited ++ s.freed))

/-- Page conservation: the books balance, and no table is referred to twice. -/
structure Conserved (s : State) : Prop where
  once : (T.tree s).pages.Nodup
  balanced : T.Balanced s

/-- The pages on the wait list are still in use, but out of the tree. -/
structure Parted (s : State) : Prop where
  live : ∀ page ∈ s.pending, page ∈ s.live
  tree : ∀ page ∈ s.pending, page ∉ (T.tree s).pages
  root : T.root.1 ∉ s.pending

variable {T}

/-- Steps that stay in the page table keep the pages that wait apart. -/
theorem Frames.parted {s s' : State} (wf : T.WF s) (frames : T.Frames s s') (parted : T.Parted s) :
    T.Parted s' := by
  refine ⟨fun page member => ?_, fun page member inTree => ?_, fun member => ?_⟩
  · rcases frames.pending page member with waiting | ⟨live, -, -⟩
    · exact frames.live page (parted.live page waiting)
    · exact live
  · rcases frames.pending page member with waiting | ⟨-, out, -⟩
    · rcases frames.pages page inTree with old | fresh
      · exact parted.tree page waiting old
      · exact fresh (parted.live page waiting)
    · exact out inTree
  · rcases frames.pending _ member with waiting | ⟨-, -, old | fresh⟩
    · exact parted.root waiting
    · exact wf.root_apart old
    · exact fresh wf.root_live

/-! ## Giving up a subtree -/

/-- **Deallocation hands every table of the subtree to the wait list once**, if there
is none of the lowest level. -/
theorem deallocate_perm (lawful : T.format.Lawful) (mem : Memory Word Word entries) :
    ∀ (l : Nat) (w page : Word), T.format.kind (l + 1) w = .table page →
      (treeOf T.format.kind mem (l + 1) w).Bottomless (l + 1) →
      (T.deallocate mem l page).Perm (treeOf T.format.kind mem (l + 1) w).pages
  | 0, w, page, table, bottomless => by
      rw [treeOf_table mem table] at bottomless
      exact absurd rfl bottomless.1
  | l + 1, w, page, table, bottomless => by
      rw [treeOf_table mem table] at bottomless ⊢
      rw [deallocate, Tree.pages]
      refine List.perm_append_comm.trans ?_
      rw [List.singleton_append]
      refine List.Perm.cons page (List.Perm.flatMap_left (List.finRange entries) fun i _ => ?_)
      cases h : T.format.kind (l + 1) (mem page i) with
      | hole =>
          rw [treeOf_hole mem h, if_pos (Format.kind_hole h)]
          exact List.Perm.nil
      | leaf =>
          obtain ⟨ne, bare⟩ := Format.kind_leaf_iff.mp h
          rw [treeOf_leaf mem h, if_neg ne, bare]
          exact List.Perm.nil
      | table p =>
          obtain ⟨ne, isTable, rfl⟩ := Format.kind_table_iff.mp h
          rw [if_neg ne, isTable]
          exact deallocate_perm lawful mem l _ _ h (bottomless.2 i)

section Exchange

variable (lawful : T.format.Lawful) {s : State} (wf : T.WF s) {v : Word} {l : Nat}
  {r : Slot Word entries} (slot : T.slotAt s v l = some r) {e : Word} (writable : T.Writable l e)
include wf slot writable

include lawful

/-- The pages that an exchange gives up are those of the old subtree. -/
theorem exchange_given
    (bottomless : (treeOf T.format.kind s.mem l (s.load r)).Bottomless l) :
    ∃ given, given.Perm (treeOf T.format.kind s.mem l (s.load r)).pages ∧
      T.exchange l r e s = (s.store r e).wait given := by
  unfold exchange
  by_cases table : s.load r ≠ 0#64 ∧ T.format.isTable l (s.load r) = true
  · obtain ⟨ne, isTable⟩ := table
    cases l with
    | zero => rw [lawful.table_zero] at isTable; cases isTable
    | succ k =>
        have kind : T.format.kind (k + 1) (s.load r) = .table (T.format.addr 0 (s.load r)) :=
          Format.kind_table_iff.mpr ⟨ne, isTable, rfl⟩
        have old := old_subtree wf slot (e := e)
        refine ⟨T.deallocate (s.store r e).mem k (T.format.addr 0 (s.load r)), ?_, ?_⟩
        · rw [← old] at bottomless ⊢
          exact deallocate_perm lawful _ k _ _ kind bottomless
        · simp only [ne_eq, ne, not_false_eq_true, isTable, and_self, if_true, Nat.add_sub_cancel]
  · refine ⟨[], ?_, ?_⟩
    · have bare : ∀ p, T.format.kind l (s.load r) ≠ .table p := fun p h =>
        table ⟨(Format.kind_table_iff.mp h).1, (Format.kind_table_iff.mp h).2.1⟩
      rw [treeOf_bare l bare]
      split <;> exact List.Perm.nil
    · simp only [table, if_false]
      rfl

theorem balanced_exchange
    (bottomless : (treeOf T.format.kind s.mem l (s.load r)).Bottomless l)
    (balanced : T.Balanced s) : T.Balanced (T.exchange l r e s) := by
  obtain ⟨rest, before, after⟩ := pages_exchange wf slot writable
  obtain ⟨given, old, run⟩ := exchange_given lawful wf slot writable bottomless
  have logs : (T.exchange l r e s).obtained = s.obtained ∧
      (T.exchange l r e s).waited = given ++ s.waited ∧ (T.exchange l r e s).freed = s.freed := by
    rw [run]
    exact ⟨rfl, rfl, rfl⟩
  unfold Balanced
  rw [logs.1, logs.2.1, logs.2.2]
  calc s.obtained
      |>.Perm ((T.tree s).pages ++ (s.waited ++ s.freed)) := balanced
    _ |>.Perm (given ++ rest ++ (s.waited ++ s.freed)) :=
        (before.trans (old.symm.append_right rest)).append_right _
    _ |>.Perm (rest ++ (given ++ s.waited ++ s.freed)) := by
        refine (List.perm_append_comm.append_right _).trans ?_
        rw [List.append_assoc, List.append_assoc]
    _ |>.Perm ((T.tree (T.exchange l r e s)).pages ++ (given ++ s.waited ++ s.freed)) :=
        after.symm.append_right _

omit lawful in
/-- **A lowest table is lost**: replacing an entry of level 1 that refers to a table
never balances the books. -/
theorem exchange_leaks (lowest : l = 1) {page : Word}
    (table : T.format.kind l (s.load r) = .table page) (balanced : T.Balanced s) :
    ¬ T.Balanced (T.exchange l r e s) := by
  subst lowest
  intro again
  obtain ⟨rest, before, after⟩ := pages_exchange wf slot writable
  have logs : (T.exchange 1 r e s).obtained = s.obtained ∧ (T.exchange 1 r e s).waited = s.waited ∧
      (T.exchange 1 r e s).freed = s.freed := by
    unfold exchange
    dsimp only
    split
    · rw [Nat.sub_self, deallocate]
      exact ⟨rfl, rfl, rfl⟩
    · exact ⟨rfl, rfl, rfl⟩
  unfold Balanced at again
  rw [logs.1, logs.2.1, logs.2.2] at again
  have fewer := (balanced.symm.trans again).length_eq
  simp only [List.length_append, before.length_eq, after.length_eq, treeOf_table _ table,
    Tree.pages, List.length_cons] at fewer
  omega

end Exchange

/-! ## One atomic step

`S` stands for a set of addresses below which no lowest table may appear. -/

/-- An installation that adds no lowest table at an address of `S`. -/
def Clear (T : Pagetable) (S : Word → Prop) (u : Word) (m : Nat) : Prop :=
  m = 1 → ∀ x, S x → ¬ T.SameSlot 1 x u

/-- An exchange in a slot of the lowest level, or in one whose addresses all belong to `S`. -/
def Spared (T : Pagetable) (S : Word → Prop) (u : Word) (l : Nat) (_ : Word) : Prop :=
  l = 0 ∨ ∀ y, T.Inside y → T.SameSlot l y u → S y

/-- What the steps of an operation keep. -/
structure Kept (T : Pagetable) (S : Word → Prop) (s : State) : Prop where
  balanced : T.Balanced s
  parted : T.Parted s
  high : ∀ x, S x → (T.find s x).1 ≠ 0

/-- There is an address for every choice of indices. -/
theorem exists_address (lawful : T.format.Lawful) (path : Nat → Fin entries) :
    ∃ y, T.Inside y ∧ ∀ k < T.format.lev, slotIndex y k = path k := by
  obtain ⟨d, bound, digits⟩ := exists_digits (B := entries) (by decide) (fun k => (path k : Nat))
    (fun k => (path k).isLt) T.format.lev
  have small : d * 2 ^ pageBits < 2 ^ (T.format.lev * bpl + pageBits) := by
    rw [pow_block, Nat.mul_comm]
    exact Nat.mul_lt_mul_of_pos_left bound (Nat.two_pow_pos _)
  have value : (BitVec.ofNat 64 (d * 2 ^ pageBits)).toNat = d * 2 ^ pageBits := by
    rw [BitVec.toNat_ofNat, Nat.mod_eq_of_lt]
    exact small.trans (Nat.pow_lt_pow_right (by decide) (lawful.bits_lt (le_refl _)))
  refine ⟨BitVec.ofNat 64 (d * 2 ^ pageBits), by rw [Inside, value]; exact small, fun k hk => ?_⟩
  apply Fin.ext
  rw [slotIndex_eq_block, block_eq, value, Nat.mul_div_cancel _ (Nat.two_pow_pos _)]
  exact digits k hk

/-- A slot whose addresses are all searched above level 0 has no lowest table below it. -/
theorem bottomless_slot (lawful : T.format.Lawful) {s : State} {u : Word} {l : Nat}
    {r : Slot Word entries} (slot : T.slotAt s u l = some r)
    (high : ∀ y, T.Inside y → T.SameSlot l y u → (T.find s y).1 ≠ 0) :
    (treeOf T.format.kind s.mem l (s.load r)).Bottomless l := by
  refine bottomless_treeOf l _ fun path => ?_
  obtain ⟨y, inside, digits⟩ := exists_address lawful fun k => if k < l then path k else slotIndex u k
  have hl := slotAt_le slot
  have same : T.SameSlot l y u := by
    intro k low lt
    rw [digits k lt, if_neg (by omega)]
  have found := high y inside same
  rw [find_slot slot same] at found
  rwa [find_treeOf_agree path l _ fun k _ hk => by
    rw [digits k (by omega), if_pos hk]] at found

section Steps

variable (lawful : T.format.Lawful) {S : Word → Prop} {s s' : State} (wf : T.WF s)
include lawful wf

/-- A link keeps the books: an installed table is in the tree, a late one was freed. -/
theorem Link.kept (kept : T.Kept S s) (link : T.Link (T.Clear S) s s') : T.Kept S s' := by
  obtain ⟨balanced, parted, high⟩ := kept
  have high' : ∀ x, S x → (T.find s' x).1 ≠ 0 := by
    intro x hx zero
    rcases link.find_cases lawful wf x with same | ⟨v, m, known, pos, slot, -, after⟩
    · exact high x hx (same ▸ zero)
    · obtain rfl : m = 1 := by omega
      exact known rfl x hx slot
  refine ⟨?_, (link.frames lawful wf).parted wf parted, high'⟩
  cases link with
  | answer supply race sub => exact balanced
  | install v m r page slot pos bare usable known =>
      exact (balanced.cons page).trans
        ((pages_install lawful wf slot pos bare usable).symm.append_right _)
  | lose page p size usable =>
      have same : T.tree (((s.take page).construct page p size).free page) = T.tree s :=
        (tree_construct wf usable.2.2 p size).1
      unfold Balanced
      rw [same]
      refine (balanced.cons page).trans ?_
      rw [← List.append_assoc]
      exact List.perm_middle.symm.trans (List.Perm.of_eq (List.append_assoc _ _ _))

theorem Edit.kept (kept : T.Kept S s) (edit : T.Edit (T.Clear S) (T.Spared S) s s') : T.Kept S s' := by
  cases edit with
  | link link => exact link.kept lawful wf kept
  | exchange u l r e slot inside writable known =>
      have bottomless : (treeOf T.format.kind s.mem l (s.load r)).Bottomless l := by
        rcases known with rfl | all
        · cases h : T.format.kind 0 (s.load r) <;> simp [treeOf, h, Tree.Bottomless]
        · exact bottomless_slot lawful slot fun y hy same => kept.high y (all y hy same)
      refine ⟨balanced_exchange lawful wf slot writable bottomless kept.balanced,
        (frames_exchange wf slot writable).parted wf kept.parted, fun x hx => ?_⟩
      obtain ⟨through, past⟩ := find_exchange_slot wf slot writable x
      by_cases same : T.SameSlot l x u
      · -- the search ended below this slot before, so the slot is not of level 0
        rw [through same]
        rintro rfl
        have before := kept.high x hx
        rw [find_slot slot same] at before
        exact before (Nat.le_zero.mp (Tree.find_level_le _ _ _))
      · rw [past same]
        exact kept.high x hx

end Steps

/-! ## Operations -/

inductive Op where
  | setLeafMax (l : Nat)
  | walk (v : Word) (n : Nat) (e : Bool)
  | update (v p : Word) (ord : Nat) (pm : Permissions) (ca : Cacheability) (sh : Shareability)
  | freeWait
  /-- From now on the allocator answers `supply` and other CPUs act as in `race`. -/
  | others (supply : List Word) (race : List (List (Word × Nat)))

def Op.run (T : Pagetable) : Op → Config → Config
  | .setLeafMax l, c => { c with lim := Kernel.setLeafMax c.lim l }
  | .walk v n e, c => { c with state := (T.walk v n e c.state).2 }
  | .update v p ord pm ca sh, c => { c with state := (T.update c.lim v p ord pm ca sh c.state).2 }
  | .freeWait, c => { c with state := c.state.freeWait }
  | .others supply race, c => { c with state := { c.state with supply, race } }

/-- Levels inside the page table, and aligned addresses inside the widths. -/
def Op.Admissible (T : Pagetable) : Op → Prop
  | .walk _ n _ => n ≤ T.format.lev
  | .update v p ord _ _ _ => T.Request v p ord
  | _ => True

/-- An operation that meets no lowest table: an update works on slots of level 0, or
every lookup in its range ends above level 0 and no other CPU installs a lowest
table there meanwhile; and it writes no leaf in place of the root. -/
def Op.Spares (T : Pagetable) (c : Config) : Op → Prop
  | .update v _ ord pm ca sh =>
      (T.format.pageAttr 0 pm ca sh ≠ 0#64 → min ord c.lim / bpl < T.format.lev) ∧
        (min ord c.lim < bpl ∨ ∀ x, T.Inside x → InRange v ord x →
          (T.lookup x 0#3 0#2 c.state).o ≠ 0 ∧
            ∀ others ∈ c.state.race, ∀ at_ ∈ others, at_.2 = 1 → ¬ T.SameSlot 1 x at_.1)
  | _ => True

/-- Whatever its order, an update covers addresses of its range only. -/
theorem covered_inRange (lawful : T.format.Lawful) {v p : Word} {ord lim : Nat}
    (request : T.Request v p ord) (handles : T.format.Handles lim ord ∨ bit32 (min ord lim % bpl) = 1)
    {i : Nat} (hi : i < bit32 (ord - min ord lim)) {x : Word}
    (covered : Covered (min ord lim / bpl) (bit32 (min ord lim % bpl))
      (nth (BitVec.ofNat 64 (bit32 (min ord lim + pageBits))) v i) x) : InRange v ord x := by
  rcases handles with handles | one
  · obtain ⟨hv, -, aligned, -, room⟩ := round_base lawful request handles hi
    rw [← hv] at aligned
    obtain ⟨low, high⟩ := (covered_iff aligned x).2.2.mp covered
    rw [hv] at low high
    exact ⟨by omega, by omega⟩
  · -- one block, and blocks of this level divide the range
    have width : 2 ^ (T.format.lev * bpl + pageBits) ≤ 2 ^ 64 :=
      Nat.pow_le_pow_right (by decide) (lawful.bits_lt (le_refl _)).le
    obtain ⟨hv, short⟩ := @nth_room ord lim v (request.v_fits.trans width) i hi
    rw [one] at covered
    obtain ⟨low, high⟩ := covered
    have same : block (min ord lim / bpl) x =
        block (min ord lim / bpl) (nth (BitVec.ofNat 64 (bit32 (min ord lim + pageBits))) v i) := by
      omega
    have unit : 2 ^ (min ord lim / bpl * bpl + pageBits) ∣ 2 ^ (ord + pageBits) := by
      refine Nat.pow_dvd_pow 2 ?_
      have := Nat.div_mul_le_self (min ord lim) bpl
      omega
    obtain ⟨c, hc⟩ := unit
    obtain ⟨d, hd⟩ := Nat.dvd_of_mod_eq_zero request.v_aligned
    unfold block at same
    rw [hv] at same
    have pos : 0 < 2 ^ (min ord lim / bpl * bpl + pageBits) := Nat.two_pow_pos _
    unfold InRange
    have upper : v.toNat + 2 ^ (ord + pageBits) = (d * c + c) * 2 ^ (min ord lim / bpl * bpl + pageBits) := by
      rw [hd, hc]
      ring
    have lower : v.toNat = d * c * 2 ^ (min ord lim / bpl * bpl + pageBits) := by
      rw [hd, hc]
      ring
    rw [upper, lower]
    rw [← Nat.le_div_iff_mul_le pos, ← Nat.div_lt_iff_lt_mul pos, same, Nat.le_div_iff_mul_le pos,
      Nat.div_lt_iff_lt_mul pos, ← upper, ← lower]
    omega

/-- An update that meets no lowest table. -/
theorem update_kept (lawful : T.format.Lawful) {k : Nat} (hk : k ≤ 3) (top : k ≤ T.format.lev)
    {s : State} (wf : T.WF s) (parted : T.Parted s) (balanced : T.Balanced s) {v p : Word}
    {ord : Nat} (request : T.Request v p ord) {pm : Permissions} {ca : Cacheability}
    {sh : Shareability} (spares : Op.Spares T ⟨k * bpl, s⟩ (.update v p ord pm ca sh)) :
    T.WF (T.update (k * bpl) v p ord pm ca sh s).2 ∧
      T.Parted (T.update (k * bpl) v p ord pm ca sh s).2 ∧
      T.Balanced (T.update (k * bpl) v p ord pm ca sh s).2 := by
  obtain ⟨below, clear⟩ := spares
  have level : min ord (k * bpl) / bpl ≤ T.format.lev := by
    simp only [bpl]
    omega
  have rounds := fun i (hi : i < bit32 (ord - min ord (k * bpl))) =>
    rounds_keep lawful request hk top pm ca sh
      (fun ne => below fun zero => ne (lawful.attr_zero 0 _ _ _ _ zero)) hi
  have high : ∀ x, (T.Inside x ∧ bpl ≤ min ord (k * bpl) ∧ InRange v ord x) →
      (T.find s x).1 ≠ 0 ∧
        ∀ others ∈ s.race, ∀ at_ ∈ others, at_.2 = 1 → ¬ T.SameSlot 1 x at_.1 := by
    rintro x ⟨inside, large, inRange⟩
    rcases clear with low | all
    · exact absurd large (Nat.not_le.mpr low)
    · obtain ⟨order, apart⟩ := all x inside inRange
      rw [lookup_translation lawful] at order
      refine ⟨fun zero => order ?_, apart⟩
      rw [zero]
      cases T.translation s x <;> simp [Lookup.ofTranslation]
  have edits : T.Edits (T.Clear fun x => T.Inside x ∧ bpl ≤ min ord (k * bpl) ∧ InRange v ord x)
      (T.Spared fun x => T.Inside x ∧ bpl ≤ min ord (k * bpl) ∧ InRange v ord x) s
      (T.update (k * bpl) v p ord pm ca sh s).2 := by
    refine updateLoop_edits lawful level _ v p s _ _ wf ?_ rounds ?_ ?_ rfl
    · exact fun others h1 at_ h2 lowest x hx => (high x hx).2 others h1 at_ h2 lowest
    · -- an update of large slots installs no lowest table itself
      rintro i hi m above rfl x ⟨-, large, -⟩
      have := Nat.div_pos large (by decide)
      omega
    · intro i hi j hj u hu member
      by_cases lowest : min ord (k * bpl) / bpl = 0
      · exact Or.inl lowest
      · refine Or.inr fun y hy same => ⟨hy, ?_, ?_⟩
        · by_contra small
          exact lowest (Nat.div_eq_of_lt (by omega))
        · have blocks := (sameSlot_iff level hy hu).mp same
          exact covered_inRange lawful request (handles_or_one T.format top) hi
            ⟨by omega, by omega⟩
  obtain ⟨wf', kept⟩ := Edits.keep lawful (fun _ _ wf edit kept => edit.kept lawful wf kept) wf edits
    ⟨balanced, parted, fun x hx => (high x hx).1⟩
  exact ⟨wf', kept.parted, kept.balanced⟩

/-- What every operation keeps. -/
structure Accounted (T : Pagetable) (c : Config) : Prop where
  lim : ∃ k ≤ 3, c.lim = k * bpl
  wf : T.WF c.state
  parted : T.Parted c.state
  balanced : T.Balanced c.state

/-- Reclaiming the pages that wait takes nothing from the tree. -/
theorem freeWait_wf {s : State} (wf : T.WF s) (parted : T.Parted s) : T.WF s.freeWait := by
  refine ⟨wf.nodup, fun page member => ?_, ?_, wf.root_apart, wf.leaves, wf.root_small⟩
  · refine List.mem_filter.mpr ⟨wf.owned page member, ?_⟩
    simpa using fun waiting => parted.tree page waiting member
  · refine List.mem_filter.mpr ⟨wf.root_live, ?_⟩
    simpa using parted.root

/-- One operation. -/
theorem op_accounted (lawful : T.format.Lawful) (three : 3 ≤ T.format.lev) (c : Config) (op : Op)
    (inv : T.Accounted c) (admissible : op.Admissible T) (spares : op.Spares T c) :
    T.Accounted (op.run T c) := by
  obtain ⟨lim, state⟩ := c
  obtain ⟨⟨k, hk, rfl⟩, wf, parted, balanced⟩ := inv
  cases op with
  | setLeafMax l =>
      exact ⟨⟨min k l, by omega, by simp only [Op.run, Kernel.setLeafMax, Nat.mul_min_mul_right]⟩,
        wf, parted, balanced⟩
  | walk v n e =>
      -- a walk knows of no address to spare
      have links := (walk_spec (I := T.Clear fun _ => False) lawful wf
        (fun _ _ _ _ _ _ absurd => absurd.elim) (fun _ _ _ _ absurd => absurd.elim) admissible
        (v := v) (e := e) rfl).1
      obtain ⟨wf', kept⟩ := Links.keep lawful (fun _ _ wf link kept => link.kept lawful wf kept) wf
        links ⟨balanced, parted, fun _ absurd => absurd.elim⟩
      exact ⟨⟨k, hk, rfl⟩, wf', kept.parted, kept.balanced⟩
  | update v p ord pm ca sh =>
      obtain ⟨wf', parted', balanced'⟩ :=
        update_kept lawful hk (by omega) wf parted balanced admissible spares
      exact ⟨⟨k, hk, rfl⟩, wf', parted', balanced'⟩
  | freeWait =>
      exact ⟨⟨k, hk, rfl⟩, freeWait_wf wf parted, ⟨fun _ h => absurd h List.not_mem_nil,
        fun _ h => absurd h List.not_mem_nil, List.not_mem_nil⟩, balanced⟩
  | others supply race =>
      exact ⟨⟨k, hk, rfl⟩, ⟨wf.nodup, wf.owned, wf.root_live, wf.root_apart, wf.leaves,
        wf.root_small⟩, ⟨parted.live, parted.tree, parted.root⟩, balanced⟩

/-- **Page conservation**, along every sequence of operations whose updates meet no
lowest table, whatever the allocator answers and other CPUs install. -/
theorem conserved_of_spares (fmt : Fmt) (args : List Nat) (T : Pagetable)
    (format : T.format = fmt.format) (s : State) (wf : T.WF s) (parted : T.Parted s)
    (balanced : T.Balanced s) (ops : List Op)
    (spares : Along (Op.run T) (fun c op => op.Admissible T ∧ op.Spares T c)
      ⟨fmt.format.limit args, s⟩ ops) :
    Along (Op.run T) (fun c op => T.Conserved (op.run T c).state) ⟨fmt.format.limit args, s⟩ ops := by
  have lawful : T.format.Lawful := format ▸ fmt.lawful
  have three : 3 ≤ T.format.lev := by
    rw [format]
    rcases fmt.four_or_npt with four | ⟨xnx, rfl⟩
    · omega
    · exact le_refl 3
  obtain ⟨k, hk, limit⟩ := limit_cases fmt.format args
  refine Along.transfer (I := T.Accounted) (fun c op inv given => ?_) ops _
    ⟨⟨k, fmt.max_eq ▸ hk, limit⟩, wf, parted, balanced⟩ spares
  have after := op_accounted lawful three c op inv given.1 given.2
  exact ⟨after, after.wf.nodup, after.balanced⟩

theorem seed_books (F : Format) (supply : List Word) :
    (bareTable F).Parted (seedState supply) ∧ (bareTable F).Balanced (seedState supply) := by
  have tree : (bareTable F).tree (seedState supply) = .hole := bare_tree F
  refine ⟨⟨fun _ h => absurd h List.not_mem_nil, fun _ h => absurd h List.not_mem_nil,
    List.not_mem_nil⟩, ?_⟩
  unfold Balanced
  rw [tree]
  exact List.Perm.nil

/-- A walk to level 2 obtains two tables. -/
def walkedState : State := ((bareTable hptX86).walk 0#64 2 true (seedState [0x2000#64, 0x3000#64])).2

/-- Below 512GB every lookup ends at the empty slots of the second table. -/
theorem walked_lookup {x : Word} (low : x.toNat < 2 ^ 39) :
    ((bareTable hptX86).lookup x 0#3 0#2 walkedState).o = 18 := by
  have index : slotIndex x 3 = 0 := by
    apply Fin.ext
    rw [toNat_slotIndex, show 3 * bpl + pageBits = 39 from rfl, Nat.div_eq_of_lt low]
    rfl
  obtain ⟨root, next, empty⟩ : walkedState.load (bareTable hptX86).root = 0x2000#64 ∧
      walkedState.mem 0x2000#64 0 = 0x3027#64 ∧ ∀ i, walkedState.mem 0x3000#64 i = 0#64 := by decide +kernel
  have down : ∀ mem : Memory Word Word entries, (bareTable hptX86).lookupFrom mem x 0#3 0#2 4 0x2000#64 =
      (bareTable hptX86).lookupFrom mem x 0#3 0#2 3 (mem 0x2000#64 (slotIndex x 3)) := fun _ => rfl
  have deeper : ∀ mem : Memory Word Word entries, (bareTable hptX86).lookupFrom mem x 0#3 0#2 3 0x3027#64 =
      (bareTable hptX86).lookupFrom mem x 0#3 0#2 2 (mem 0x3000#64 (slotIndex x 2)) := fun _ => rfl
  have hole : ∀ mem : Memory Word Word entries, ((bareTable hptX86).lookupFrom mem x 0#3 0#2 2 0#64).o = 18 := fun _ => rfl
  unfold lookup
  rw [root]
  show ((bareTable hptX86).lookupFrom walkedState.mem x 0#3 0#2 4 0x2000#64).o = 18
  rw [down, index, next, deeper, empty, hole]

/-- A leaf of 512GB replaces the second table, which waits from then on. -/
theorem conserved_of_spares_large_page :
    (bareTable hptX86).Conserved ((bareTable hptX86).update 27 0#64 0#64 27 { r := true } 0#3 0#2 walkedState).2 ∧
      ((bareTable hptX86).update 27 0#64 0#64 27 { r := true } 0#3 0#2 walkedState).2.waited = [0x3000#64] := by
  obtain ⟨parted, balanced⟩ := seed_books hptX86 [0x2000#64, 0x3000#64]
  have along := conserved_of_spares .hptX86 [] (bareTable hptX86) rfl _
    (seed_wf hptX86_lawful _) parted balanced [.walk 0#64 2 true, .update 0#64 0#64 27 { r := true } 0#3 0#2] ?_
  · exact ⟨along.2.1, by decide +kernel⟩
  · refine ⟨⟨show 2 ≤ 4 by decide, trivial⟩, ⟨⟨by decide, by decide, by decide, by decide⟩, fun _ => by decide, Or.inr ?_⟩, trivial⟩
    intro x _ inRange
    have low : x.toNat < 2 ^ 39 := by simpa [InRange, pageBits] using inRange
    have order : ((bareTable hptX86).lookup x 0#3 0#2 walkedState).o = 18 := walked_lookup low
    exact ⟨by rw [show Op.run _ _ _ = (⟨_, walkedState⟩ : Config) from rfl, order]; decide, fun _ h => absurd h List.not_mem_nil⟩

/-- A 4KB page is mapped, then the 2MB that contain it: the lowest table is gone. -/
theorem not_conserved_lowest :
    ¬ (bareTable hptX86).Conserved ((bareTable hptX86).update 27 0#64 0#64 9 { r := true } 0#3 0#2
      ((bareTable hptX86).update 27 0#64 0#64 0 { r := true } 0#3 0#2
        (seedState [0x2000#64, 0x3000#64, 0x4000#64, 0x5000#64])).2).2 := by
  obtain ⟨parted, balanced⟩ := seed_books hptX86 [0x2000#64, 0x3000#64, 0x4000#64, 0x5000#64]
  have request : (bareTable hptX86).Request 0#64 0#64 0 :=
    ⟨by decide, by decide, by decide, by decide⟩
  have spares : Op.Spares (bareTable hptX86)
      ⟨3 * bpl, seedState [0x2000#64, 0x3000#64, 0x4000#64, 0x5000#64]⟩
      (.update 0#64 0#64 0 { r := true } 0#3 0#2) := ⟨fun _ => by decide, Or.inl (by decide)⟩
  obtain ⟨wf, -, before⟩ := update_kept (T := bareTable hptX86) hptX86_lawful (by decide) (by decide)
    (seed_wf hptX86_lawful _) parted balanced request spares
  have slot : (bareTable hptX86).slotAt ((bareTable hptX86).update 27 0#64 0#64 0 { r := true } 0#3 0#2
      (seedState [0x2000#64, 0x3000#64, 0x4000#64, 0x5000#64])).2 0#64 1 = some (0x4000#64, 0) := rfl
  have frame : hptX86.Frame 1 0#64 := ⟨by simp, by simp⟩
  have good := (hptX86_lawful.leaf_good (l := 1) (by decide) frame
    (hptX86_lawful.attr_read 1 0#3 0#2)).1
  have table : hptX86.kind 1 (((bareTable hptX86).update 27 0#64 0#64 0 { r := true } 0#3 0#2
      (seedState [0x2000#64, 0x3000#64, 0x4000#64, 0x5000#64])).2.load (0x4000#64, 0)) =
      .table 0x5000#64 := rfl
  intro conserved
  exact exchange_leaks wf slot (Or.inr good) rfl table before conserved.balanced

end Pagetable

end Nova.Kernel
