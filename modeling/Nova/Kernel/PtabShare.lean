/-
# Nova.Kernel.PtabShare — the page tables of the CPUs

On x86 a host space has one page table `hptp` and one for each CPU, `loc`.  A user
page fault copies the entry of level 3 for the faulting address from `hptp` to
`loc[cpu]` (`Hptp::share_from`); the tables below it are then shared.

`Attached` says that this sharing is sound: what `loc[cpu]` refers to is still part
of `hptp`, and a lookup in it finds a hole or what `hptp` has.  It rests on the
entries of level 3 never changing once they refer to a table, so it holds along
every run whose updates stay below level 3 (`attached_of_low`).  An update at level
3 replaces such an entry in `hptp` only, and frees the table that the CPUs still use
(`not_attached_unmapping`).
-/
import Nova.Kernel.Isolation

namespace Nova.Kernel

open Nova.Theory.Words
open Nova.Theory.Radix
open Nova.Theory.Runs

set_option autoImplicit false

/-- `Hptp::share_from`.  `none` is a read through `~0UL`, the pointer that a walk
returns for a hole: it is not checked for. -/
def Pagetable.shareFrom (T src : Pagetable) (v o : Word) (s : State) : Option (Bool × State) :=
  let l := ((v ^^^ o).toNat.log2 - pageBits) / bpl
  match T.walk v l true s with
  | (.null, s) => some (false, s)
  | (.hole, _) => none
  | (.ptr d, s) =>
      match src.walk v l false s with
      | (.null, s) => some (false, s)
      | (.hole, _) => none
      | (.ptr r, s) =>
          if s.load d = s.load r then some (false, s) else some (true, s.store d (s.load r))

/-- A host space among the spaces of an x86 machine, with its page tables for the
CPUs. -/
structure HostSpace (ι κ : Type) where
  machine : Machine ι
  x86 : ∃ mbec, machine.arch = .x86 mbec
  hst : ι
  host : machine.kind hst = .hst
  loc : κ → Pagetable
  format : ∀ cpu, (loc cpu).format = hptX86
  roots : ∀ cpu i, (loc cpu).root ≠ (machine.ptab i).root
  distinct : ∀ cpu cpu', cpu ≠ cpu' → (loc cpu).root ≠ (loc cpu').root

inductive HstOp (ι κ : Type) where
  /-- `Space_hst::update` of this space -/
  | update (v p : Word) (ord : Nat) (pm : Permissions) (ca : Cacheability) (sh : Shareability)
  | delegate (src dst : ι) (ssb dsb ord : Nat) (pmm : Permissions) (ca : Cacheability)
      (sh : Shareability) (junk : Nat → Cacheability × Shareability)
  /-- The user part of `Ec_arch::handle_exc_pf` on a CPU -/
  | fill (cpu : κ) (addr : Word)
  | freeWait
  | others (supply : List Word) (race : List (List (Word × Nat)))

namespace HostSpace

variable {ι κ : Type} [DecidableEq ι] (H : HostSpace ι κ)

def hptp : Pagetable := H.machine.ptab H.hst

/-- `Space_hst::num << PAGE_BITS` -/
def userEnd : Word := pageAddr (2 ^ (4 * bpl - 1))

/-- A page fault.  A CPU's page table is walked by that CPU only: no other acts on it
meanwhile. -/
def fill (cpu : κ) (addr : Word) (s : State) : State :=
  match (H.loc cpu).shareFrom H.hptp addr userEnd { s with race := [] } with
  | some (_, s') => { s' with race := s.race }
  | none => s

def run : HstOp ι κ → State → State
  | .update v p ord pm ca sh, s => (H.hptp.update (H.machine.lim H.hst) v p ord pm ca sh s).2
  | .delegate src dst ssb dsb ord pmm ca sh junk, s =>
      (H.machine.run (.delegate src dst ssb dsb ord pmm ca sh junk) { state := s, opened := [] }).state
  | .fill cpu addr, s => H.fill cpu addr s
  | .freeWait, s => s.freeWait
  | .others supply race, s => { s with supply, race }

/-- What callers ensure. -/
def Admissible : HstOp ι κ → Prop
  | .update v p ord _ _ _ => H.hptp.Request v p ord
  | .delegate src _ ssb dsb ord _ _ _ _ => H.machine.kind src = .hst ∧ 2 ^ ord ∣ ssb ∧ 2 ^ ord ∣ dsb
  | .fill _ addr => addr.toNat < 2 ^ 47
  | _ => True

/-- An operation that stays below level 3 of this space. -/
def Low : HstOp ι κ → Prop
  | .update _ _ ord _ _ _ => min ord (H.machine.lim H.hst) / bpl < 3
  | .delegate _ dst _ _ ord _ _ _ _ => dst = H.hst → min ord (H.machine.lim H.hst) / bpl < 3
  | _ => True

omit [DecidableEq ι] in
/-- **No page table of a CPU dangles**, as far as user addresses go. -/
structure Attached (s : State) : Prop where
  tables : ∀ cpu x r page, x.toNat < 2 ^ 47 → (H.loc cpu).slotAt s x 3 = some r →
    hptX86.kind 3 (s.load r) = .table page →
    page ∈ (H.hptp.tree s).pages ∧ page ∉ s.pending ∧ page ∈ s.live
  lookups : ∀ cpu x ca sh, x.toNat < 2 ^ 47 →
    ((H.loc cpu).lookup x ca sh s).pm = .none ∧ ((H.loc cpu).lookup x ca sh s).p = 0#64 ∨
      (H.loc cpu).lookup x ca sh s = H.hptp.lookup x ca sh s

/-- A page in use that belongs to no space. -/
structure Stray (s : State) (page : Word) : Prop where
  live : page ∈ s.live
  idle : page ∉ s.pending
  apart : ∀ i, page ∉ ((H.machine.ptab i).tree s).pages

/-- A space that `Space_hst::create` returned: an empty root table, and nothing yet
for the CPUs. -/
structure Created (s : State) : Prop where
  sound : H.machine.Sound s
  rooted : H.machine.Rooted s
  empty : ∃ page, H.hptp.tree s = .table page fun _ => .hole
  object : ∀ cpu, H.Stray s (H.loc cpu).root.1
  loc : ∀ cpu, s.load (H.loc cpu).root = 0#64

end HostSpace

/-! ## The level of a share -/

theorem share_level {v : Word} (user : v.toNat < 2 ^ 47) :
    ((v ^^^ HostSpace.userEnd).toNat.log2 - pageBits) / bpl = 3 := by
  have bit : HostSpace.userEnd.toNat = 2 ^ 47 := by decide
  have value : (v ^^^ HostSpace.userEnd).toNat = v.toNat ^^^ 2 ^ 47 := by
    rw [BitVec.toNat_xor, bit]
  have high : 2 ^ 47 ≤ v.toNat ^^^ 2 ^ 47 := by
    apply Nat.ge_two_pow_of_testBit
    rw [Nat.testBit_xor, Nat.testBit_lt_two_pow user, Nat.testBit_two_pow_self]
    rfl
  have low : v.toNat ^^^ 2 ^ 47 < 2 ^ 48 := Nat.xor_lt_two_pow (by omega) (by decide)
  have log : (v ^^^ HostSpace.userEnd).toNat.log2 = 47 := by
    rw [value]
    exact (Nat.log2_eq_iff (by omega)).mpr ⟨high, low⟩
  rw [log]
  rfl

namespace Pagetable

variable {T : Pagetable} (format : T.format = hptX86) {s : State}
include format

/-- A walk to level 3 on a page table with a root table. -/
theorem walk_top {page : Word} (table : hptX86.kind 4 (s.load T.root) = .table page) (v : Word)
    (e : Bool) : T.walk v 3 e s = (.ptr (page, slotIndex v 3), s) := by
  obtain ⟨ne, isTable, rfl⟩ := Format.kind_table_iff.mp table
  have small : hptX86.isLarge 4 (s.load T.root) = false := by simpa [hptX86] using isTable
  have step : ∀ race, T.next 4 T.root e race (s.load T.root) s =
      (.ptr (hptX86.addr 0 (s.load T.root)), s) := by
    intro race
    cases race <;> simp [next, format, ne, small]
  simp [walk, format, show hptX86.lev = 3 + 1 from rfl, walkFrom, step]

/-- A walk to level 3 on an empty page table, while no other CPU acts on it. -/
theorem walk_empty (hole : s.load T.root = 0#64) (idle : s.race = []) (v : Word) :
    T.walk v 3 true s =
      match s.alloc with
      | (none, s') => (.null, s')
      | (some page, s') => (.ptr (page, slotIndex v 3), T.install 4 T.root 0#64 page s') := by
  simp only [walk, format, show hptX86.lev = 3 + 1 from rfl, walkFrom, next, hole, idle]
  cases h : s.alloc with
  | mk answer s' => cases answer <;> simp

theorem slotAt_top {page : Word} (table : hptX86.kind 4 (s.load T.root) = .table page) (x : Word) :
    T.slotAt s x 3 = some (page, slotIndex x 3) := by
  unfold slotAt
  rw [format, show hptX86.lev = 3 + 1 from rfl, slotOf_table (by decide) table, slotOf_self]

theorem tree_top {page : Word} (table : hptX86.kind 4 (s.load T.root) = .table page) :
    T.tree s = .table page fun i => treeOf hptX86.kind s.mem 3 (s.load (page, i)) := by
  unfold tree
  rw [format, show hptX86.lev = 3 + 1 from rfl, treeOf_table _ table]
  rfl

theorem find_top {page : Word} (table : hptX86.kind 4 (s.load T.root) = .table page) (x : Word) :
    T.find s x = (treeOf hptX86.kind s.mem 3 (s.load (page, slotIndex x 3))).find (slotIndex x) 3 := by
  unfold find
  rw [tree_top format table, format]
  rfl

end Pagetable

/-! ## What lies outside the spaces -/

namespace Machine

variable {ι : Type} {M : Machine ι} {s s' : State}

/-- Writes outside the spaces keep them. -/
theorem Sound.foreign (sound : M.Sound s) (live : ∀ page ∈ s.live, page ∈ s'.live)
    (pending : s'.pending = s.pending)
    (cells : ∀ i, ∀ page ∈ ((M.ptab i).tree s).pages, s'.mem page = s.mem page)
    (roots : ∀ i, s'.load (M.ptab i).root = s.load (M.ptab i).root) :
    M.Sound s' ∧ ∀ i, (M.ptab i).tree s' = (M.ptab i).tree s := by
  have tree : ∀ i, (M.ptab i).tree s' = (M.ptab i).tree s := by
    intro i
    unfold Pagetable.tree
    rw [roots i]
    exact treeOf_congr _ _ (cells i)
  refine ⟨⟨fun i => ?_, fun i => ?_, fun i j ne => ?_, fun i => ?_⟩, tree⟩
  · have wf := sound.wf i
    refine ⟨?_, ?_, live _ wf.root_live, ?_, ?_, ?_⟩
    · rw [tree i]; exact wf.nodup
    · rw [tree i]; exact fun page member => live page (wf.owned page member)
    · rw [tree i]; exact wf.root_apart
    · rw [tree i]; exact wf.leaves
    · rw [roots i]; exact wf.root_small
  · unfold Pagetable.Exact
    rw [tree i]
    exact sound.exact_ i
  · have apart := sound.apart i j ne
    refine ⟨?_, ?_, ?_, apart.roots⟩
    · rw [tree i, tree j]; exact apart.pages
    · rw [tree j]; exact apart.left
    · rw [tree i]; exact apart.right
  · have parted := sound.parted i
    refine ⟨?_, ?_, ?_⟩
    · rw [pending]; exact fun page member => live page (parted.live page member)
    · rw [pending, tree i]; exact parted.tree
    · rw [pending]; exact parted.root

theorem Rooted.of_tree (rooted : M.Rooted s) (tree : ∀ i, (M.ptab i).tree s' = (M.ptab i).tree s) :
    M.Rooted s' := by
  intro i host x
  unfold Pagetable.find
  rw [tree i]
  exact rooted i host x

end Machine

/-! ## The invariant -/

namespace HostSpace

variable {ι κ : Type} (H : HostSpace ι κ)

theorem hptp_format : H.hptp.format = hptX86 := by
  obtain ⟨mbec, arch⟩ := H.x86
  unfold hptp
  rw [H.machine.format, arch, H.host]
  rfl

/-- The root table of a CPU, whose user slots are empty or those of the table `top`. -/
structure Local (s : State) (top : Word) (cpu : κ) (page : Word) : Prop where
  entry : hptX86.kind 4 (s.load (H.loc cpu).root) = .table page
  stray : H.Stray s page
  spaces : ∀ i, page ≠ (H.machine.ptab i).root.1
  cpus : ∀ cpu', page ≠ (H.loc cpu').root.1
  slots : ∀ x : Word, x.toNat < 2 ^ 47 → s.load (page, slotIndex x 3) = 0#64 ∨
    s.load (page, slotIndex x 3) = s.load (top, slotIndex x 3)

/-- The invariant: `top` is the root table of `hptp`, which has no leaf of level 3. -/
structure Shares (s : State) (top : Word) : Prop where
  sound : H.machine.Sound s
  rooted : H.machine.Rooted s
  low : (H.hptp.tree s).AllLeaves (fun l _ => l < 3) H.hptp.format.lev
  entry : hptX86.kind 4 (s.load H.hptp.root) = .table top
  object : ∀ cpu, H.Stray s (H.loc cpu).root.1
  loc : ∀ cpu, s.load (H.loc cpu).root = 0#64 ∨ ∃ page, H.Local s top cpu page
  apart : ∀ cpu cpu' page, cpu ≠ cpu' → hptX86.kind 4 (s.load (H.loc cpu).root) = .table page →
    hptX86.kind 4 (s.load (H.loc cpu').root) ≠ .table page

variable {H} {s s' : State} {top : Word}

/-- An entry of level 3 of `hptp` is empty or refers to a table. -/
theorem Shares.slot_cases (shares : H.Shares s top) (i : Fin entries) :
    s.load (top, i) = 0#64 ∨ ∃ page, hptX86.kind 3 (s.load (top, i)) = .table page := by
  cases kind : hptX86.kind 3 (s.load (top, i)) with
  | hole => exact Or.inl (Format.kind_hole kind)
  | table page => exact Or.inr ⟨page, rfl⟩
  | leaf =>
      have low := shares.low
      rw [Pagetable.tree_top H.hptp_format shares.entry] at low
      have here : (treeOf hptX86.kind s.mem 3 (s.load (top, i))).AllLeaves (fun l _ => l < 3)
          (H.hptp.format.lev - 1) := low i
      rw [treeOf_leaf _ kind, H.hptp_format] at here
      exact absurd here (lt_irrefl 3)

/-- **The invariant gives the contract.** -/
theorem Shares.attached (shares : H.Shares s top) : H.Attached s := by
  have tree := Pagetable.tree_top H.hptp_format shares.entry
  refine ⟨fun cpu x r page user slot table => ?_, fun cpu x ca sh user => ?_⟩
  · rcases shares.loc cpu with hole | ⟨root, own⟩
    · -- without a root table there is no slot
      have none : (H.loc cpu).slotAt s x 3 = none := by
        unfold Pagetable.slotAt
        have hole : s.mem (H.loc cpu).root.1 (H.loc cpu).root.2 = 0#64 := hole
        rw [H.format cpu, show hptX86.lev = 3 + 1 from rfl, slotOf, if_neg (by decide), hole,
          Format.kind_zero]
      rw [none] at slot
      cases slot
    · rw [Pagetable.slotAt_top (H.format cpu) own.entry] at slot
      obtain rfl := Option.some.inj slot
      rcases own.slots x user with hole | shared
      · rw [hole, Format.kind_zero] at table
        cases table
      · rw [shared] at table
        have member : page ∈ (H.hptp.tree s).pages := by
          rw [tree]
          refine List.mem_cons_of_mem _ (List.mem_flatMap.mpr ⟨slotIndex x 3, List.mem_finRange _, ?_⟩)
          show page ∈ (treeOf hptX86.kind s.mem (2 + 1) (s.load (top, slotIndex x 3))).pages
          rw [treeOf_table _ table]
          exact List.mem_cons_self
        exact ⟨member, fun waiting => (shares.sound.parted H.hst).tree page waiting member,
          (shares.sound.wf H.hst).owned page member⟩
  · have lawful : (H.loc cpu).format.Lawful := H.format cpu ▸ hptX86_lawful
    have lawful' : H.hptp.format.Lawful := H.hptp_format ▸ hptX86_lawful
    rw [Pagetable.lookup_eq lawful, Pagetable.lookup_eq lawful', H.format cpu, H.hptp_format]
    rcases shares.loc cpu with hole | ⟨root, own⟩
    · left
      unfold Pagetable.find Pagetable.tree
      rw [hole, treeOf_hole _ (Format.kind_zero _ _), Tree.find]
      exact ⟨rfl, rfl⟩
    · rw [Pagetable.find_top (H.format cpu) own.entry, Pagetable.find_top H.hptp_format shares.entry]
      rcases own.slots x user with hole | shared
      · left
        rw [hole, treeOf_hole _ (Format.kind_zero _ _), Tree.find]
        exact ⟨rfl, rfl⟩
      · right
        rw [shared]

/-- A step that leaves the pages outside the spaces alone, and the tables of level 3
of this space in place. -/
structure Quiet (H : HostSpace ι κ) (s s' : State) : Prop where
  cells : ∀ r : Slot Word entries, H.Stray s r.1 → (∀ i, r ≠ (H.machine.ptab i).root) →
    s'.load r = s.load r
  stray : ∀ page, H.Stray s page → H.Stray s' page
  steady : H.hptp.Steady 3 s s'

theorem Shares.keep (shares : H.Shares s top) (quiet : H.Quiet s s') (sound : H.machine.Sound s')
    (rooted : H.machine.Rooted s') : H.Shares s' top := by
  have root : s'.load H.hptp.root = s.load H.hptp.root := by
    refine (quiet.steady.tables 4 0#64 _ top (by decide) ?_ ?_).2
    · unfold Pagetable.slotAt
      rw [H.hptp_format]
      exact slotOf_self _ _ _ _
    · rw [H.hptp_format]
      exact shares.entry
  have cpuRoot : ∀ cpu, s'.load (H.loc cpu).root = s.load (H.loc cpu).root := fun cpu =>
    quiet.cells _ (shares.object cpu) (H.roots cpu)
  refine ⟨sound, rooted, quiet.steady.leaves shares.low, by rw [root]; exact shares.entry,
    fun cpu => quiet.stray _ (shares.object cpu), fun cpu => ?_, fun cpu cpu' page ne => ?_⟩
  · rw [cpuRoot cpu]
    refine (shares.loc cpu).imp_right fun ⟨page, own⟩ => ⟨page, by rw [cpuRoot]; exact own.entry,
      quiet.stray _ own.stray, own.spaces, own.cpus, fun x user => ?_⟩
    rw [quiet.cells (page, slotIndex x 3) own.stray fun i e => own.spaces i (congrArg Prod.fst e)]
    rcases own.slots x user with hole | shared
    · exact Or.inl hole
    · rw [shared]
      rcases shares.slot_cases (slotIndex x 3) with hole | ⟨table, kind⟩
      · exact Or.inl hole
      · refine Or.inr (quiet.steady.tables 3 x _ table (le_refl 3) ?_ ?_).2.symm
        · exact Pagetable.slotAt_top H.hptp_format shares.entry x
        · rw [H.hptp_format]
          exact kind
  · rw [cpuRoot cpu, cpuRoot cpu']
    exact shares.apart cpu cpu' page ne

/-- A step in one of the spaces. -/
theorem Quiet.of_frames (sound : H.machine.Sound s) {i : ι} (frames : (H.machine.ptab i).Frames s s')
    (steady : i = H.hst → H.hptp.Steady 3 s s') : H.Quiet s s' := by
  have tree : ∀ j, j ≠ i → (H.machine.ptab j).tree s' = (H.machine.ptab j).tree s := fun j ne =>
    ((sound.apart i j ne.symm).tree (sound.wf j) frames).2
  refine ⟨fun r stray ne => frames.cells r stray.live (stray.apart i) (ne i), fun page stray => ?_, ?_⟩
  · refine ⟨frames.live page stray.live, fun waiting => ?_, fun j => ?_⟩
    · rcases frames.pending page waiting with before | ⟨-, -, inTree | fresh⟩
      · exact stray.idle before
      · exact stray.apart i inTree
      · exact fresh stray.live
    · by_cases same : j = i
      · subst same
        intro inTree
        rcases frames.pages page inTree with old | fresh
        · exact stray.apart j old
        · exact fresh stray.live
      · rw [tree j same]
        exact stray.apart j
  · by_cases same : i = H.hst
    · exact steady same
    · have here := tree H.hst fun e => same e.symm
      have apart := sound.apart i H.hst same
      refine ⟨fun k v r p _ slot _ => ⟨?_, ?_⟩, fun low => ?_⟩
      · rw [Pagetable.slotAt_eq_slot] at slot ⊢
        rw [show H.hptp.tree s' = H.hptp.tree s from here]
        exact slot
      · refine frames.cells r ((sound.wf H.hst).slot_live slot) ?_ ?_
        · rcases Pagetable.slotAt_owner slot with ⟨-, rfl⟩ | ⟨-, member⟩
          · exact apart.right
          · exact fun inTree => apart.pages _ inTree member
        · rintro rfl
          rcases Pagetable.slotAt_owner slot with ⟨-, e⟩ | ⟨-, member⟩
          · exact apart.roots e
          · exact apart.left member
      · rw [show H.hptp.tree s' = H.hptp.tree s from here]
        exact low

/-! ## A page fault -/

theorem Shares.others (shares : H.Shares s top) (supply : List Word) (race : List (List (Word × Nat))) :
    H.Shares { s with supply, race } top :=
  ⟨shares.sound.others supply race, shares.rooted, shares.low, shares.entry,
    fun cpu => ⟨(shares.object cpu).live, (shares.object cpu).idle, (shares.object cpu).apart⟩,
    fun cpu => (shares.loc cpu).imp_right fun ⟨page, own⟩ => ⟨page, own.entry,
      ⟨own.stray.live, own.stray.idle, own.stray.apart⟩, own.spaces, own.cpus, own.slots⟩,
    shares.apart⟩

/-- What a write outside the spaces leaves as it is. -/
structure Beside (H : HostSpace ι κ) (s s' : State) (top : Word) : Prop where
  tree : ∀ i, (H.machine.ptab i).tree s' = (H.machine.ptab i).tree s
  sound : H.machine.Sound s'
  rooted : H.machine.Rooted s'
  low : (H.hptp.tree s').AllLeaves (fun l _ => l < 3) H.hptp.format.lev
  entry : hptX86.kind 4 (s'.load H.hptp.root) = .table top
  slots : ∀ i, s'.load (top, i) = s.load (top, i)
  stray : ∀ page, H.Stray s page → H.Stray s' page

theorem Shares.beside (shares : H.Shares s top) {r : Slot Word entries} (outside : H.Stray s r.1)
    (ne : ∀ i, r ≠ (H.machine.ptab i).root)
    (cells : ∀ q : Slot Word entries, q.1 ∈ s.live → q ≠ r → s'.load q = s.load q)
    (live : ∀ page ∈ s.live, page ∈ s'.live) (pending : s'.pending = s.pending) :
    H.Beside s s' top := by
  have inTree : ∀ i, ∀ page ∈ ((H.machine.ptab i).tree s).pages, ∀ k,
      s'.load (page, k) = s.load (page, k) := by
    intro i page member k
    refine cells _ ((shares.sound.wf i).owned page member) ?_
    rintro rfl
    exact outside.apart i member
  have roots : ∀ i, s'.load (H.machine.ptab i).root = s.load (H.machine.ptab i).root := fun i =>
    cells _ (shares.sound.wf i).root_live (ne i).symm
  obtain ⟨sound, tree⟩ := shares.sound.foreign live pending
    (fun i page member => funext fun k => inTree i page member k) roots
  refine ⟨tree, sound, shares.rooted.of_tree tree, ?_, ?_, fun i => inTree H.hst top ?_ i,
    fun page stray => ?_⟩
  · rw [show H.hptp.tree s' = H.hptp.tree s from tree H.hst]
    exact shares.low
  · rw [show s'.load H.hptp.root = s.load H.hptp.root from roots H.hst]
    exact shares.entry
  · show top ∈ (H.hptp.tree s).pages
    rw [Pagetable.tree_top H.hptp_format shares.entry]
    exact List.mem_cons_self
  · exact ⟨live page stray.live, by rw [pending]; exact stray.idle,
      fun i => by rw [tree i]; exact stray.apart i⟩

/-- A CPU whose root table was not written. -/
theorem Local.keep {cpu : κ} {page : Word} (own : H.Local s top cpu page) (beside : H.Beside s s' top)
    (root : s'.load (H.loc cpu).root = s.load (H.loc cpu).root)
    (cells : ∀ i, s'.load (page, i) = s.load (page, i)) : H.Local s' top cpu page := by
  refine ⟨by rw [root]; exact own.entry, beside.stray page own.stray, own.spaces, own.cpus,
    fun x user => ?_⟩
  rw [cells, beside.slots]
  exact own.slots x user

/-- A CPU gets its root table. -/
theorem Shares.install (shares : H.Shares s top) {cpu : κ} (hole : s.load (H.loc cpu).root = 0#64)
    {page : Word} (usable : s.Usable page) :
    H.Shares ((H.loc cpu).install 4 (H.loc cpu).root 0#64 page (s.take page)) top ∧
      H.Local ((H.loc cpu).install 4 (H.loc cpu).root 0#64 page (s.take page)) top cpu page := by
  have unused := usable.2.2
  have rootLive := (shares.object cpu).live
  have load : ∀ q : Slot Word entries, q.1 ∈ s.live →
      ((H.loc cpu).install 4 (H.loc cpu).root 0#64 page (s.take page)).load q =
        if q = (H.loc cpu).root then (H.loc cpu).tableEntry 4 page else s.load q := fun q live =>
    Pagetable.load_install 4 _ _ usable live
  have fresh : ∀ i, ((H.loc cpu).install 4 (H.loc cpu).root 0#64 page (s.take page)).load (page, i) =
      0#64 := by
    intro i
    have ne : (page, i) ≠ (H.loc cpu).root := fun e =>
      unused ((show page = _ from congrArg Prod.fst e) ▸ rootLive)
    refine (write_ne _ _ _ ne).trans ?_
    simp [State.construct, Pagetable.splinter]
  have live : ((H.loc cpu).install 4 (H.loc cpu).root 0#64 page (s.take page)).live =
      page :: s.live := rfl
  have pending : ((H.loc cpu).install 4 (H.loc cpu).root 0#64 page (s.take page)).pending =
      s.pending := rfl
  generalize (H.loc cpu).install 4 (H.loc cpu).root 0#64 page (s.take page) = s'
    at load fresh live pending ⊢
  have beside : H.Beside s s' top := by
    refine shares.beside (shares.object cpu) (H.roots cpu) (fun q member ne => ?_) ?_ pending
    · rw [load q member, if_neg ne]
    · rw [live]
      exact fun _ => List.mem_cons_of_mem _
  have entry : hptX86.kind 4 (s'.load (H.loc cpu).root) = .table page := by
    have lawful : (H.loc cpu).format.Lawful := H.format cpu ▸ hptX86_lawful
    have := (Pagetable.kind_tableEntry (T := H.loc cpu) lawful (m := 4) (by decide)
      (by rw [H.format cpu]; exact le_refl 4) usable.1 usable.2.1).1
    rw [load _ rootLive, if_pos rfl]
    rwa [H.format cpu] at this
  have others : ∀ cpu', cpu' ≠ cpu → s'.load (H.loc cpu').root = s.load (H.loc cpu').root := by
    intro cpu' ne
    rw [load _ (shares.object cpu').live, if_neg (H.distinct cpu' cpu ne)]
  have own : H.Local s' top cpu page := by
    refine ⟨entry, ⟨?_, ?_, fun i member => ?_⟩, fun i e => ?_, fun cpu' e => ?_,
      fun x _ => Or.inl (fresh _)⟩
    · rw [live]
      exact List.mem_cons_self
    · rw [pending]
      exact fun waiting => unused ((shares.sound.parted H.hst).live page waiting)
    · rw [beside.tree i] at member
      exact unused ((shares.sound.wf i).owned page member)
    · exact unused (e ▸ (shares.sound.wf i).root_live)
    · exact unused (e ▸ (shares.object cpu').live)
  -- the root tables of the other CPUs were in use before
  have before : ∀ cpu', cpu' ≠ cpu → hptX86.kind 4 (s'.load (H.loc cpu').root) ≠ .table page := by
    intro cpu' ne table
    rw [others cpu' ne] at table
    rcases shares.loc cpu' with empty | ⟨page', own'⟩
    · rw [empty, Format.kind_zero] at table
      cases table
    · obtain rfl := Kind.table.inj (own'.entry.symm.trans table)
      exact unused own'.stray.live
  refine ⟨⟨beside.sound, beside.rooted, beside.low, beside.entry,
    fun cpu' => beside.stray _ (shares.object cpu'), fun cpu' => ?_, fun cpu1 cpu2 page' ne h1 h2 => ?_⟩,
    own⟩
  · by_cases same : cpu' = cpu
    · exact Or.inr ⟨page, same ▸ own⟩
    · rw [others cpu' same]
      rcases shares.loc cpu' with none | ⟨page', own'⟩
      · exact Or.inl none
      · refine Or.inr ⟨page', own'.keep beside (others cpu' same) fun i => ?_⟩
        rw [load _ own'.stray.live, if_neg fun e => own'.cpus cpu (congrArg Prod.fst e)]
  · by_cases first : cpu1 = cpu
    · subst first
      obtain rfl := Kind.table.inj (entry.symm.trans h1)
      exact before cpu2 ne.symm h2
    · by_cases second : cpu2 = cpu
      · subst second
        obtain rfl := Kind.table.inj (entry.symm.trans h2)
        exact before cpu1 first h1
      · rw [others cpu1 first] at h1
        rw [others cpu2 second] at h2
        exact shares.apart cpu1 cpu2 page' ne h1 h2

/-- A CPU gets an entry of `hptp`. -/
theorem Shares.copy (shares : H.Shares s top) {cpu : κ} {page : Word} (own : H.Local s top cpu page)
    (x : Word) :
    H.Shares (s.store (page, slotIndex x 3) (s.load (top, slotIndex x 3))) top := by
  have load : ∀ q : Slot Word entries, q ≠ (page, slotIndex x 3) →
      (s.store (page, slotIndex x 3) (s.load (top, slotIndex x 3))).load q = s.load q := fun q ne =>
    write_ne _ _ _ ne
  have new : (s.store (page, slotIndex x 3) (s.load (top, slotIndex x 3))).load (page, slotIndex x 3) =
      s.load (top, slotIndex x 3) := write_self _ _ _
  have beside : H.Beside s (s.store (page, slotIndex x 3) (s.load (top, slotIndex x 3))) top :=
    shares.beside (r := (page, slotIndex x 3)) own.stray
      (fun i e => own.spaces i (congrArg Prod.fst e)) (fun q _ ne => load q ne) (fun _ h => h) rfl
  generalize s.store (page, slotIndex x 3) (s.load (top, slotIndex x 3)) = s' at load new beside ⊢
  have roots : ∀ cpu', s'.load (H.loc cpu').root = s.load (H.loc cpu').root := fun cpu' =>
    load _ fun e => own.cpus cpu' (congrArg Prod.fst e).symm
  refine ⟨beside.sound, beside.rooted, beside.low, beside.entry,
    fun cpu' => beside.stray _ (shares.object cpu'), fun cpu' => ?_, fun cpu1 cpu2 page' ne => ?_⟩
  · by_cases same : cpu' = cpu
    · subst same
      refine Or.inr ⟨page, by rw [roots]; exact own.entry, beside.stray page own.stray, own.spaces,
        own.cpus, fun y user => ?_⟩
      rw [beside.slots]
      by_cases here : slotIndex y 3 = slotIndex x 3
      · rw [here]
        exact Or.inr new
      · rw [load _ fun e => here (congrArg Prod.snd e)]
        exact own.slots y user
    · rw [roots cpu']
      refine (shares.loc cpu').imp_right fun ⟨page', own'⟩ =>
        ⟨page', own'.keep beside (roots cpu') fun i => load _ ?_⟩
      rintro e
      obtain rfl : page' = page := congrArg Prod.fst e
      exact shares.apart cpu' cpu page' same own'.entry own.entry
  · rw [roots cpu1, roots cpu2]
    exact shares.apart cpu1 cpu2 page' ne

/-- The second half of `share_from`. -/
theorem Shares.share (shares : H.Shares s top) {cpu : κ} {page : Word} (own : H.Local s top cpu page)
    (x : Word) : ∃ ok s', (if s.load (page, slotIndex x 3) = s.load (top, slotIndex x 3) then
      some (false, s) else some (true, s.store (page, slotIndex x 3) (s.load (top, slotIndex x 3)))) =
        some (ok, s') ∧ H.Shares s' top := by
  split
  · exact ⟨false, s, rfl, shares⟩
  · exact ⟨true, _, rfl, shares.copy own x⟩

/-- **`share_from` never reads through the pointer of a hole**, and keeps the
invariant. -/
theorem Shares.shareFrom (shares : H.Shares s top) (idle : s.race = []) (cpu : κ) {x : Word}
    (user : x.toNat < 2 ^ 47) :
    ∃ ok s', (H.loc cpu).shareFrom H.hptp x userEnd s = some (ok, s') ∧ H.Shares s' top := by
  unfold Pagetable.shareFrom
  rw [share_level user]
  dsimp only
  rcases shares.loc cpu with hole | ⟨page, own⟩
  · rw [Pagetable.walk_empty (H.format cpu) hole idle]
    cases h : s.alloc with
    | mk answer s1 =>
        obtain ⟨supply, ⟨rfl, rfl⟩ | ⟨page, rfl, usable, rfl⟩⟩ := Pagetable.alloc_cases h
        · exact ⟨false, _, rfl, shares.others supply s.race⟩
        · obtain ⟨shares', own⟩ := (shares.others supply s.race).install hole usable
          dsimp only
          rw [Pagetable.walk_top H.hptp_format shares'.entry]
          exact shares'.share own x
  · rw [Pagetable.walk_top (H.format cpu) own.entry]
    dsimp only
    rw [Pagetable.walk_top H.hptp_format shares.entry]
    exact shares.share own x

/-! ## Whole runs -/

theorem Quiet.freeWait (H : HostSpace ι κ) (s : State) : H.Quiet s s.freeWait := by
  refine ⟨fun _ _ _ => rfl, fun page stray => ⟨?_, List.not_mem_nil, stray.apart⟩,
    fun _ _ _ _ _ slot _ => ⟨slot, rfl⟩, id⟩
  exact List.mem_filter.mpr ⟨stray.live, by simpa using stray.idle⟩

/-- **Every operation** below level 3 keeps the invariant. -/
theorem Shares.run [DecidableEq ι] (shares : H.Shares s top) {op : HstOp ι κ}
    (admissible : H.Admissible op) (low : H.Low op) : H.Shares (H.run op s) top := by
  cases op with
  | update v p ord pm ca sh =>
      obtain ⟨k, hk, lim⟩ := H.machine.lim_cases H.hst
      have lawful : H.hptp.format.Lawful := H.hptp_format ▸ hptX86_lawful
      have levels : H.hptp.format.lev = 4 := by rw [H.hptp_format]; rfl
      rw [Low, lim] at low
      rw [HostSpace.run, lim]
      generalize run : H.hptp.update (k * bpl) v p ord pm ca sh s = out
      obtain ⟨res, s'⟩ := out
      obtain ⟨wf, exact_, frames, level, steady⟩ := Pagetable.update_keeps lawful hk (by omega)
        admissible (by omega) pm ca sh (Or.inr (H.hptp_format ▸ hptX86_stableOr))
        (shares.sound.wf H.hst) (shares.sound.exact_ H.hst) run
      obtain ⟨sound, others⟩ := shares.sound.step H.hst frames wf exact_
      refine shares.keep (.of_frames shares.sound frames fun _ => steady 3 low) sound fun j host x => ?_
      by_cases same : j = H.hst
      · subst same
        refine lt_of_le_of_lt (level x) (max_lt (shares.rooted H.hst host x) (lt_of_lt_of_le low ?_))
        exact levels ▸ (by decide)
      · rw [others j same x]
        exact shares.rooted j host x
  | delegate src dst ssb dsb ord pmm ca sh junk =>
      obtain ⟨host, aligned, aligned'⟩ := admissible
      rcases Machine.Sound.delegate (w := { state := s, opened := [] }) shares.sound shares.rooted pmm ca
        sh junk host aligned aligned' with same | ⟨s1, delegated⟩
      · rw [HostSpace.run, same]
        exact shares
      · obtain ⟨-, -, ⟨res, calls, result⟩, after, sound, rooted, -⟩ := delegated
        rw [HostSpace.run, after]
        have quiet : H.Quiet s s1 := by
          refine .of_frames shares.sound (i := dst) result.frames fun here => ?_
          subst here
          exact result.steady 3 (low rfl)
        exact (shares.keep quiet sound rooted).keep (.freeWait H s1) sound.freeWait rooted
  | fill cpu addr =>
      obtain ⟨ok, s', share, shares'⟩ := (shares.others s.supply []).shareFrom rfl cpu admissible
      rw [HostSpace.run, fill, share]
      exact shares'.others s'.supply s.race
  | freeWait => exact shares.keep (.freeWait H s) shares.sound.freeWait shares.rooted
  | others supply race => exact shares.others supply race

/-- A created space satisfies the invariant. -/
theorem Created.shares (created : H.Created s) : ∃ top, H.Shares s top := by
  obtain ⟨top, tree⟩ := created.empty
  have entry : hptX86.kind 4 (s.load H.hptp.root) = .table top := by
    cases kind : hptX86.kind 4 (s.load H.hptp.root) with
    | hole =>
        unfold Pagetable.tree at tree
        rw [H.hptp_format, show hptX86.lev = 4 from rfl, treeOf_hole _ kind] at tree
        cases tree
    | leaf =>
        unfold Pagetable.tree at tree
        rw [H.hptp_format, show hptX86.lev = 4 from rfl, treeOf_leaf _ kind] at tree
        cases tree
    | table page =>
        rw [Pagetable.tree_top H.hptp_format kind] at tree
        exact congrArg _ (Tree.table.inj tree).1
  refine ⟨top, created.sound, created.rooted, ?_, entry, created.object,
    fun cpu => Or.inl (created.loc cpu), fun cpu cpu' page _ table => ?_⟩
  · rw [tree]
    exact fun _ => trivial
  · rw [created.loc cpu, Format.kind_zero] at table
    cases table

/-- **The page tables of the CPUs stay attached**, in every run whose updates of this
space stay below level 3. -/
theorem attached_of_low [DecidableEq ι] (H : HostSpace ι κ) (s : State) (created : H.Created s)
    (ops : List (HstOp ι κ)) (low : ∀ op ∈ ops, H.Admissible op ∧ H.Low op) :
    H.Attached s ∧ Along H.run (fun s op => H.Attached (H.run op s)) s ops := by
  obtain ⟨top, shares⟩ := created.shares
  refine ⟨shares.attached, ?_⟩
  refine Along.transfer (I := fun s => H.Shares s top)
    (G := fun _ op => H.Admissible op ∧ H.Low op) (fun s op shares good => ?_) ops s shares
    (Along.of_forall low)
  have next := shares.run good.1 good.2
  exact ⟨next, next.attached⟩

/-- One host space, with one CPU. -/
def oneCpu : HostSpace Unit Unit where
  machine := Machine.bootMachine
  x86 := ⟨false, rfl⟩
  hst := ()
  host := rfl
  loc _ := { format := hptX86, root := (0x1000#64, 1) }
  format _ := rfl
  roots _ _ e := absurd (congrArg Prod.snd e) (by decide : (1 : Fin entries) ≠ 0)
  distinct _ _ ne := absurd rfl ne

/-- The space after `Space_hst::create`. -/
def newborn : State := ((bareTable hptX86).rootInit
  (Pagetable.seedState [0x2000#64, 0x3000#64, 0x4000#64, 0x5000#64, 0x6000#64])).2

theorem newborn_created : oneCpu.Created newborn := by
  have bare := Pagetable.seed_wf hptX86_lawful [0x3000#64, 0x4000#64, 0x5000#64, 0x6000#64]
  have exact_ : (bareTable hptX86).Exact
      (Pagetable.seedState [0x3000#64, 0x4000#64, 0x5000#64, 0x6000#64]) := (bare_wf hptX86_lawful).2
  have link : (bareTable hptX86).Link Pagetable.Anywhere
      (Pagetable.seedState [0x3000#64, 0x4000#64, 0x5000#64, 0x6000#64]) newborn :=
    .install _ 0#64 4 (0x1000#64, 0) 0x2000#64 rfl (by decide) (fun _ h => (by cases h))
      ⟨by decide, by decide, by decide⟩ trivial
  have wf := link.wf hptX86_lawful bare
  have parted := (link.frames hptX86_lawful bare).parted bare (Pagetable.seed_books hptX86 _).1
  have entry : hptX86.kind 4 (newborn.load (bareTable hptX86).root) = .table 0x2000#64 := rfl
  refine ⟨⟨fun _ => wf, fun _ => link.exact hptX86_lawful bare exact_, fun _ _ ne => absurd rfl ne,
    fun _ => parted⟩, fun _ _ => ?_, ⟨0x2000#64, ?_⟩, fun _ => ⟨?_, ?_, fun _ => wf.root_apart⟩,
    fun _ => rfl⟩
  · exact Delegation.level_of_root (T := bareTable hptX86) hptX86_lawful.lev_pos ⟨0x2000#64, rfl⟩
  · refine (Pagetable.tree_top (T := bareTable hptX86) rfl entry).trans (congrArg _ (funext fun i => ?_))
    have zero : newborn.load (0x2000#64, i) = 0#64 := by
      show 0#64 + BitVec.ofNat 64 i * 0#64 = 0#64
      simp
    show treeOf hptX86.kind newborn.mem 3 (newborn.load (0x2000#64, i)) = .hole
    rw [zero, treeOf_hole _ (Format.kind_zero _ _)]
  · exact List.mem_cons_of_mem _ List.mem_cons_self
  · exact List.not_mem_nil

/-- A page is mapped and used on the CPU. -/
def faultIn : List (HstOp Unit Unit) :=
  [.update 0#64 0x7000#64 0 { r := true, u := true } 0#3 0#2, .fill () 0#64]

theorem faultIn_admissible : ∀ op ∈ faultIn, oneCpu.Admissible op := by
  intro op member
  rcases List.mem_cons.mp member with rfl | member
  · exact ⟨by decide, by decide, by decide, by decide⟩
  · rw [List.mem_singleton.mp member]
    unfold Admissible
    decide

theorem attached_of_low_fault : oneCpu.Attached newborn ∧
    Along oneCpu.run (fun s op => oneCpu.Attached (oneCpu.run op s)) newborn faultIn := by
  refine attached_of_low oneCpu newborn newborn_created faultIn fun op member => ?_
  refine ⟨faultIn_admissible op member, ?_⟩
  rcases List.mem_cons.mp member with rfl | member
  · unfold Low
    decide
  · rw [List.mem_singleton.mp member]
    trivial

/-- The hole at 512GB is delegated to address 0. -/
def unmapping : HstOp Unit Unit :=
  .delegate () () (2 ^ 27) 0 27 { r := true } 0#3 0#2 fun _ => (0#3, 0#2)

def faulted : State := oneCpu.run (.fill () 0#64)
  (oneCpu.run (.update 0#64 0x7000#64 0 { r := true, u := true } 0#3 0#2) newborn)

theorem run_unmapping : oneCpu.run unmapping faulted =
    ((bareTable hptX86).update 27 0#64 0#64 27 .none 0#3 0#2 faulted).2.freeWait := by
  generalize whole : oneCpu.machine.delegation () () 27 { r := true } (fun _ => (0#3, 0#2)) = X
  have call : X.grant (2 ^ 27) 0 0#3 0#2 faulted = ⟨0#64, 0#64, 27, .none, 0#3, 0#2⟩ := by
    subst whole
    rfl
  have round : X.dest.update X.lim 0#64 0#64 27 .none 0#3 0#2 faulted =
      (.success, ((bareTable hptX86).update 27 0#64 0#64 27 .none 0#3 0#2 faulted).2) := by
    subst whole
    rfl
  have loop : (X.loop (2 ^ 27 + 2 ^ 27) (2 ^ 27) 0 0#3 0#2 faulted).2.1 =
      ((bareTable hptX86).update 27 0#64 0#64 27 .none 0#3 0#2 faulted).2 := by
    rw [Delegation.loop, if_pos (by decide), call]
    dsimp only
    rw [round]
    dsimp only
    rw [Delegation.loop, if_neg (by decide)]
  have ord : X.ord = 27 := by
    subst whole
    rfl
  show (oneCpu.machine.run (.delegate () () (2 ^ 27) 0 27 { r := true } 0#3 0#2 fun _ => (0#3, 0#2))
    { state := faulted, opened := [] }).state = _
  rw [Machine.run, whole, Delegation.delegate, ord, if_neg (by decide)]
  exact congrArg State.freeWait loop

/-- **A delegation of 512GB leaves a CPU behind**: its page table still has the page
that `hptp` has lost, in tables that were freed. -/
theorem not_attached_unmapping : (∀ op ∈ faultIn ++ [unmapping], oneCpu.Admissible op) ∧
    ¬ Along oneCpu.run (fun s op => oneCpu.Attached (oneCpu.run op s)) newborn
      (faultIn ++ [unmapping]) := by
  refine ⟨fun op member => ?_, fun ⟨_, _, attached, _⟩ => ?_⟩
  · rcases List.mem_append.mp member with member | member
    · exact faultIn_admissible op member
    · rw [List.mem_singleton.mp member]
      exact ⟨rfl, Nat.dvd_refl _, Nat.dvd_zero _⟩
  · have attached : oneCpu.Attached (oneCpu.run unmapping faulted) := attached
    rw [run_unmapping] at attached
    rcases attached.lookups () 0#64 0#3 0#2 (by decide) with ⟨hole, -⟩ | same
    · revert hole
      decide
    · revert same
      decide

end HostSpace

end Nova.Kernel
