/-
# Nova.Kernel.PtabLimit — the leaf limit and the root slot

`set_leaf_max` documents its argument as 4 (512GB), 3 (1GB), 2 (2MB), 1 (4KB), so
that a limit of `k` admits leaves in slots of level `k - 1` and below.  It keeps
the limit as the order `k * bpl`, and `update` compares the order of a request
with it, so the order equal to the limit still passes and its leaf goes into a
slot of level `k`; with as many levels as the limit that slot is the root.

`respects_of_heeds` is what holds: along every sequence of calls that stay below
that order, and that find no leaf above the limit, no leaf is installed at the
level of the limit or above, and the root keeps its table.
-/
import Nova.Theory.Runs
import Nova.Kernel.PtabRefine

namespace Nova.Kernel

open Nova.Theory.Words
open Nova.Theory.Radix
open Nova.Theory.Runs

set_option autoImplicit false

namespace Pagetable

variable (T : Pagetable)

/-- The limit of the page table's class, and the rest of the state. -/
structure Config where
  lim : Nat
  state : State

inductive Call where
  | setLeafMax (l : Nat)
  | update (v p : Word) (ord : Nat) (pm : Permissions) (ca : Cacheability) (sh : Shareability)

def Call.run : Call → Config → Config
  | .setLeafMax l, c => { c with lim := Kernel.setLeafMax c.lim l }
  | .update v p ord pm ca sh, c => { c with state := (T.update c.lim v p ord pm ca sh c.state).2 }

/-- Aligned addresses inside the widths. -/
def Call.Admissible : Call → Prop
  | .setLeafMax _ => True
  | .update v p ord _ _ _ => T.Request v p ord

def RootTable (s : State) : Prop := ∃ page, T.format.kind T.format.lev (s.load T.root) = .table page

/-- Every leaf of level `k` and above that is there afterwards was there before. -/
def NoneAbove (k : Nat) (s s' : State) : Prop :=
  ∀ x l e, T.find s' x = (l, some e) → k ≤ l → T.find s x = (l, some e)

/-- No call of the sequence installs a leaf at the level of the limit in force or
above, and none takes the root table away. -/
def Respects : Config → List Call → Prop :=
  Along (Call.run T) fun c call =>
    T.NoneAbove (c.lim / bpl) c.state (call.run T c).state ∧ T.RootTable (call.run T c).state

/-- A call that stays below the limit: an update that maps something has an order
below the limit, none works on the root slot, and none finds a leaf above the
limit that it could splinter into leaves at the limit. -/
def Below (c : Config) : Call → Prop
  | .setLeafMax _ => True
  | .update _ _ ord pm ca sh =>
      (T.format.pageAttr 0 pm ca sh ≠ 0#64 → ord < c.lim) ∧ min ord c.lim / bpl < T.format.lev ∧
        (T.tree c.state).AllLeaves (fun l _ => l ≤ c.lim / bpl) T.format.lev

def Heeds : Config → List Call → Prop :=
  Along (Call.run T) fun c call => call.Admissible T ∧ T.Below c call

variable {T}

/-! ## One atomic step -/

/-- The exchanges of an update below the limit `k`. -/
def LowEdit (T : Pagetable) (k : Nat) (_ : Word) (l : Nat) (e : Word) : Prop :=
  l < T.format.lev ∧ (e ≠ 0#64 → l < k)

theorem NoneAbove.refl (k : Nat) (s : State) : T.NoneAbove k s s := fun _ _ _ found _ => found

theorem NoneAbove.trans {k : Nat} {s s' s'' : State} (first : T.NoneAbove k s s')
    (second : T.NoneAbove k s' s'') : T.NoneAbove k s s'' := fun x l e found high =>
  first x l e (second x l e found high) high

section Link

variable {I : Word → Nat → Prop} (lawful : T.format.Lawful) {s s' : State} (wf : T.WF s) {k : Nat}
  (low : (T.tree s).AllLeaves (fun l _ => l ≤ k) T.format.lev)

include wf

theorem Link.root (root : T.RootTable s) (link : T.Link I s s') : T.RootTable s' := by
  cases link with
  | answer supply race sub => exact root
  | install v m r page slot pos bare usable known =>
      obtain ⟨page', table⟩ := root
      refine ⟨page', ?_⟩
      rw [load_install m r _ usable wf.root_live, if_neg]
      · exact table
      · rintro rfl
        rcases slotAt_owner slot with ⟨rfl, -⟩ | ⟨-, member⟩
        · exact bare _ table
        · exact wf.root_apart member
  | lose page p size usable =>
      obtain ⟨page', table⟩ := root
      refine ⟨page', ?_⟩
      rw [show (((s.take page).construct page p size).free page).load T.root = s.load T.root from
        (tree_construct wf usable.2.2 p size).2.2 T.root wf.root_live]
      exact table

include lawful low

/-- Splintering a leaf up to the limit makes leaves below it. -/
theorem Link.leaves_low (link : T.Link I s s') :
    (T.tree s').AllLeaves (fun l _ => l ≤ k) T.format.lev ∧ T.NoneAbove k s s' := by
  cases link with
  | answer supply race sub => exact ⟨low, .refl k s⟩
  | install v m r page slot pos bare usable known =>
      have leafLevel : T.format.kind m (s.load r) = .leaf → m ≤ k := by
        intro leaf
        have := Tree.allLeaves_subAt _ _ (reaches_slot slot) low
        rwa [subAt_slot slot, treeOf_leaf _ leaf] at this
      refine ⟨?_, ?_⟩
      · rw [tree_install lawful wf slot pos bare usable]
        refine Tree.allLeaves_modify _ _ ?_ _ _ low
        intro i
        unfold fragment
        split
        · trivial
        · exact (Nat.sub_le m 1).trans (leafLevel (leaf_of_bare bare ‹_›))
      · intro x l e found high
        rcases find_install lawful wf slot pos bare usable x with
          ⟨-, ⟨before, after⟩ | ⟨leaf, before, after⟩⟩ | same
        · rw [after] at found
          cases found
        · rw [after] at found
          obtain ⟨rfl, -⟩ := Prod.mk.inj found
          have := leafLevel leaf
          omega
        · rw [← same]
          exact found
  | lose page p size usable =>
      have same : T.tree (((s.take page).construct page p size).free page) = T.tree s :=
        (tree_construct wf usable.2.2 p size).1
      refine ⟨by rw [same]; exact low, fun x l e found _ => ?_⟩
      unfold find at found ⊢
      rwa [same] at found

theorem Edit.leaves_low (root : T.RootTable s) (edit : T.Edit I (T.LowEdit k) s s') :
    (T.tree s').AllLeaves (fun l _ => l ≤ k) T.format.lev ∧ T.RootTable s' ∧ T.NoneAbove k s s' := by
  cases edit with
  | link link =>
      obtain ⟨low', none⟩ := link.leaves_low lawful wf low
      exact ⟨low', link.root wf root, none⟩
  | exchange u l r e slot inside writable known =>
      obtain ⟨below, small⟩ := known
      refine ⟨?_, ?_, ?_⟩
      · rw [tree_exchange wf slot writable]
        refine Tree.allLeaves_modify _ _ ?_ _ _ low
        unfold entryTree
        split
        · trivial
        · exact (small ‹_›).le
      · obtain ⟨page, table⟩ := root
        refine ⟨page, ?_⟩
        rw [load_exchange, if_neg]
        · exact table
        · rintro rfl
          rcases slotAt_owner slot with ⟨top, -⟩ | ⟨-, member⟩
          · omega
          · exact wf.root_apart member
      · intro x l' e' found high
        obtain ⟨through, past⟩ := find_exchange_slot wf slot writable x
        by_cases same : T.SameSlot l x u
        · rw [through same, entryFind] at found
          obtain ⟨rfl, entry⟩ := Prod.mk.inj found
          split at entry
          · cases entry
          · have := small ‹_›
            omega
        · rw [past same] at found
          exact found

end Link

/-! ## Whole sequences -/

/-- An update below the limit. -/
theorem update_low (lawful : T.format.Lawful) {k : Nat} (hk : k ≤ 3) {s : State} (wf : T.WF s)
    (root : T.RootTable s) {v p : Word} {ord : Nat} (request : T.Request v p ord)
    (pm : Permissions) (ca : Cacheability) (sh : Shareability)
    (mapped : T.format.pageAttr 0 pm ca sh ≠ 0#64 → ord < k * bpl)
    (below : min ord (k * bpl) / bpl < T.format.lev)
    (low : (T.tree s).AllLeaves (fun l _ => l ≤ k) T.format.lev) :
    T.WF (T.update (k * bpl) v p ord pm ca sh s).2 ∧
      T.RootTable (T.update (k * bpl) v p ord pm ca sh s).2 ∧
      T.NoneAbove k s (T.update (k * bpl) v p ord pm ca sh s).2 := by
  have level : min ord (k * bpl) / bpl ≤ k := by simp only [bpl]; omega
  have rounds : ∀ i < bit32 (ord - min ord (k * bpl)),
      T.Round (min ord (k * bpl) / bpl) (bit32 (min ord (k * bpl) % bpl))
        (T.format.pageAttr (min ord (k * bpl) / bpl) pm ca sh)
        (nth (BitVec.ofNat 64 (bit32 (min ord (k * bpl) + pageBits))) v i)
        (nth (BitVec.ofNat 64 (bit32 (min ord (k * bpl) + pageBits))) p i) := by
    intro i hi
    by_cases handles : T.format.Handles (k * bpl) ord
    · exact (rounds_good lawful request handles hi pm ca sh).1
    · exact rounds_keep lawful request hk (by
        simp only [Format.Handles, bpl, pageBits] at handles below ⊢; omega) pm ca sh
        (fun _ => below) hi
  have edits : T.Edits Anywhere (T.LowEdit k) s (T.update (k * bpl) v p ord pm ca sh s).2 := by
    refine updateLoop_edits lawful below.le _ v p s _ _ wf (raced_anywhere s) rounds
      (fun _ _ _ _ => trivial) ?_ rfl
    intro i hi j hj u hu _
    refine ⟨below, fun ne => ?_⟩
    -- an entry is only written if the request maps something
    have attr : T.format.pageAttr (min ord (k * bpl) / bpl) pm ca sh ≠ 0#64 := by
      intro zero
      exact ne (by simp [roundEntry, zero])
    have := mapped fun zero => attr (lawful.attr_zero 0 _ _ _ _ zero)
    simp only [bpl] at *
    omega
  have keep := Edits.keep lawful
    (Q := fun a => (T.tree a).AllLeaves (fun l _ => l ≤ k) T.format.lev ∧ T.RootTable a ∧
      T.NoneAbove k s a)
    (fun a b wf edit before => by
      obtain ⟨low', root', none⟩ := edit.leaves_low lawful wf before.1 before.2.1
      exact ⟨low', root', before.2.2.trans none⟩)
    wf edits ⟨low, root, .refl k s⟩
  exact ⟨keep.1, keep.2.2⟩

/-- What every call keeps. -/
structure Limited (T : Pagetable) (c : Config) : Prop where
  lim : ∃ k ≤ 3, c.lim = k * bpl
  wf : T.WF c.state
  root : T.RootTable c.state

/-- One call. -/
theorem call_respects (lawful : T.format.Lawful) (c : Config) (call : Call) (inv : T.Limited c)
    (admissible : call.Admissible T) (below : T.Below c call) :
    T.Limited (call.run T c) ∧ T.NoneAbove (c.lim / bpl) c.state (call.run T c).state ∧
      T.RootTable (call.run T c).state := by
  obtain ⟨⟨k, hk, lim⟩, wf, root⟩ := inv
  cases call with
  | setLeafMax l =>
      have again : Kernel.setLeafMax c.lim l = min k l * bpl := by
        rw [Kernel.setLeafMax, lim, Nat.mul_min_mul_right]
      exact ⟨⟨⟨min k l, by omega, again⟩, wf, root⟩, .refl _ _, root⟩
  | update v p ord pm ca sh =>
      obtain ⟨mapped, root_free, low⟩ := below
      have quotient : c.lim / bpl = k := by rw [lim]; exact Nat.mul_div_cancel k (by decide)
      rw [quotient] at low
      rw [lim] at mapped root_free
      obtain ⟨wf', root', kept⟩ :=
        update_low lawful hk wf root admissible pm ca sh mapped root_free low
      rw [← lim] at wf' root' kept
      exact ⟨⟨⟨k, hk, lim⟩, wf', root'⟩, by rw [quotient]; exact kept, root'⟩

/-- After `root_init` the root refers to a table. -/
theorem rootInit_root (lawful : T.format.Lawful) {s s0 : State} (wf : T.WF s)
    {r : Slot Word entries} (init : T.rootInit s = (.ptr r, s0)) :
    T.Links Anywhere s s0 ∧ T.RootTable s0 := by
  obtain ⟨links, found, -⟩ := walk_spec lawful wf (raced_anywhere s) (fun _ _ => trivial)
    (Nat.sub_le _ 1) init
  refine ⟨links, ?_⟩
  rcases slotOf_cases (found r rfl) with ⟨top, -⟩ | ⟨k, page, -, -, table, -⟩
  · have := lawful.lev_pos
    omega
  · exact ⟨page, table⟩

/-- **Leaf limit and root integrity**, for every format and every sequence of calls
after `root_init` that stay below the limit. -/
theorem respects_of_heeds (fmt : Fmt) (args : List Nat) (T : Pagetable) (format : T.format = fmt.format)
    (s s0 : State) (wf : T.WF s) (r : Slot Word entries) (init : T.rootInit s = (.ptr r, s0))
    (calls : List Call) (heeds : T.Heeds ⟨fmt.format.limit args, s0⟩ calls) :
    T.Respects ⟨fmt.format.limit args, s0⟩ calls := by
  have lawful : T.format.Lawful := format ▸ fmt.lawful
  obtain ⟨links, root⟩ := rootInit_root lawful wf init
  obtain ⟨k, hk, limit⟩ := limit_cases fmt.format args
  exact Along.transfer (fun c call inv given => call_respects lawful c call inv given.1 given.2)
    calls _ ⟨⟨k, fmt.max_eq ▸ hk, limit⟩, links.wf lawful wf, root⟩ heeds

/-- An empty page table, and pages for the tables to come. -/
def seedState (supply : List Word) : State := { bareState with supply }

theorem seed_wf {F : Format} (lawful : F.Lawful) (supply : List Word) :
    (bareTable F).WF (seedState supply) := by
  obtain ⟨wf, -⟩ := bare_wf lawful
  exact ⟨wf.nodup, wf.owned, wf.root_live, wf.root_apart, wf.leaves, wf.root_small⟩

/-- With leaves of up to 2MB, an update of order 9 maps one of them at level 1. -/
theorem respects_of_heeds_large_page :
    (bareTable hptX86).Respects
      ⟨18, ((bareTable hptX86).rootInit (seedState [0x2000#64, 0x3000#64, 0x4000#64])).2⟩
      [.update 0#64 0#64 9 { r := true } 0#3 0#2] := by
  have wf := seed_wf hptX86_lawful [0x2000#64, 0x3000#64, 0x4000#64]
  have init : (bareTable hptX86).rootInit (seedState [0x2000#64, 0x3000#64, 0x4000#64]) =
      (.ptr (0x2000#64, 0),
        ((bareTable hptX86).rootInit (seedState [0x2000#64, 0x3000#64, 0x4000#64])).2) := rfl
  refine respects_of_heeds .hptX86 [2] _ rfl _ _ wf _ init _
    ⟨⟨?_, fun _ => by decide, by decide, ?_⟩, trivial⟩
  · exact ⟨by decide, by decide, by decide, by decide⟩
  · have empty : ((bareTable hptX86).tree (seedState [0x2000#64, 0x3000#64, 0x4000#64])).AllLeaves
        (fun l _ => l ≤ 2) hptX86.lev := by
      rw [show (bareTable hptX86).tree (seedState [0x2000#64, 0x3000#64, 0x4000#64]) = .hole from
        bare_tree hptX86]
      trivial
    exact (Links.keep (T := bareTable hptX86) hptX86_lawful
      (fun _ _ wf link low => (link.leaves_low hptX86_lawful wf low).1) wf
      (rootInit_root hptX86_lawful wf init).1 empty).2

/-- An update of the order of the limit installs a 512GB leaf, under a limit of 1GB;
on three levels an update that makes a hole of that order takes the root away. -/
theorem not_respects_at_limit :
    ¬ (bareTable hptX86).Respects
        ⟨hptX86.limit [], ((bareTable hptX86).rootInit (seedState [0x2000#64])).2⟩
        [.update 0#64 0#64 27 { r := true } 0#3 0#2] ∧
      ¬ (bareTable (npt false)).Respects
        ⟨(npt false).limit [], ((bareTable (npt false)).rootInit (seedState [0x2000#64])).2⟩
        [.update 0#64 0#64 27 .none 0#3 0#2] := by
  constructor
  · rintro ⟨⟨kept, -⟩, -⟩
    have found : (bareTable hptX86).find ((bareTable hptX86).rootInit (seedState [0x2000#64])).2 0#64 =
        (3, some (hptX86.pageAttr 3 { r := true } 0#3 0#2)) :=
      kept 0#64 3 (hptX86.pageAttr 3 { r := true } 0#3 0#2) rfl (by decide)
    have before : (bareTable hptX86).find ((bareTable hptX86).rootInit (seedState [0x2000#64])).2 0#64 =
        (3, none) := rfl
    rw [before] at found
    cases found
  · rintro ⟨⟨-, page, table⟩, -⟩
    have hole : ((bareTable (npt false)).update 27 0#64 0#64 27 .none 0#3 0#2
        ((bareTable (npt false)).rootInit (seedState [0x2000#64])).2).2.load
          (bareTable (npt false)).root = 0#64 := rfl
    have zero : (npt false).kind 3 0#64 = .table page := by
      rw [← hole]
      exact table
    rw [Format.kind_zero] at zero
    cases zero

end Pagetable

end Nova.Kernel
