/-
# Nova.Kernel.SpaceObj — object spaces, with any number of walkers at once

`Space_obj::walk`, `lookup`, `update` and `insert` of `src/space_obj.cpp`, cut at
their atomic accesses: the read of a slot, the `compare_exchange` that installs a
table, the `compare_exchange` or `exchange` of the capability itself, and the two
calls of the allocator.  `n` threads run such calls; a schedule (`Move`) says who
makes the next access and what `Buddy::alloc (0)` answers there.

A call returns in the access that decides it, which is its linearisation point;
`history` logs the calls in that order, newest first.  `obtained` and `freed` log
the tables that went through `operator new` and `operator delete`.

* `Coherent` is the invariant: the tables form a tree in which nothing is shared,
  every walker stands on a slot of it, and the capabilities read off the tree are
  those that the history has stored (`mapOf`).
* `Coherent.step` says that every access keeps it.
* `refines_caps` draws the conclusions for every run.
-/
import Nova.Kernel.Capability
import Nova.Theory.Runs

namespace Nova.Kernel

open Nova.Theory.Lists
open Nova.Theory.Words
open Nova.Theory.Radix
open Nova.Theory.Runs

set_option autoImplicit false

/-- What a word of a Captable stands for: a capability at level 0, a pointer above. -/
def capKind (l : Nat) (w : Word) : Kind Word :=
  if w = 0#64 then .hole else if l = 0 then .leaf else .table w

/-- `(sel >> l * bpl) % Captable::entries` -/
def capIndex (sel : Word) (l : Nat) : Fin entries :=
  ⟨(sel >>> (l * bpl)).toNat % entries, Nat.mod_lt _ (by decide)⟩

/-! ## Calls -/

/-- A call, with its arguments.  `old` is the value of the caller's variable. -/
inductive Request where
  | lookup (sel : Word)
  | insert (sel : Word) (cap : Capability)
  | update (sel : Word) (cap old : Capability)
  deriving DecidableEq

/-- What a call returns; `fault` is an access through the pointer ~0. -/
inductive Outcome where
  | found (cap : Capability)
  | inserted (sts : Status)
  | updated (sts : Status) (old : Capability)
  | fault
  deriving DecidableEq

namespace Request

def sel : Request → Word
  | .lookup sel => sel
  | .insert sel _ => sel
  | .update sel _ _ => sel

/-- The argument `e` of `walk` -/
def makes : Request → Bool
  | .lookup _ => false
  | .insert _ _ => true
  | .update _ cap _ => cap.prm ≠ 0#32

/-- What the callers see to: `insert` gets no null capability, `update` a capability
made by the object capability constructor and a fresh variable for the old one. -/
def Valid : Request → Prop
  | .lookup _ => True
  | .insert _ cap => cap ≠ .null
  | .update _ cap old => cap.Proper ∧ old = .null

instance : DecidablePred Valid
  | .lookup _ => inferInstanceAs (Decidable True)
  | .insert _ cap => inferInstanceAs (Decidable (cap ≠ .null))
  | .update _ cap old => inferInstanceAs (Decidable ((cap.prm = 0#32 → cap = .null) ∧ old = .null))

end Request

/-- A call that has returned -/
structure Event (n : Nat) where
  thread : Fin n
  request : Request
  outcome : Outcome
  deriving DecidableEq

/-- The next access of a call -/
inductive Pc where
  /-- in `lookup`: read the slot -/
  | find (l : Nat) (ptr : Slot Word entries)
  /-- in `walk`: read the slot -/
  | read (l : Nat) (ptr : Slot Word entries)
  /-- `new Captable`, for an empty slot -/
  | alloc (l : Nat) (ptr : Slot Word entries)
  /-- `ptr->compare_exchange (cte, tbl)` -/
  | install (l : Nat) (ptr : Slot Word entries) (tbl : Word)
  /-- `delete tbl`; the walk continues in `cte` -/
  | delete (l : Nat) (tbl cte : Word)
  /-- `walk` has returned the slot -/
  | slot (ptr : Slot Word entries)
  deriving DecidableEq

namespace Pc

/-- The loop header of `walk`: the slot of level `l - 1` in the table `cte`. -/
def enter (sel : Word) (l : Nat) (cte : Word) : Pc :=
  if l - 1 = 0 then .slot (cte, capIndex sel (l - 1)) else .read (l - 1) (cte, capIndex sel (l - 1))

/-- The table that the call has obtained and not yet given away -/
def holding : Pc → List Word
  | .install _ _ tbl => [tbl]
  | .delete _ tbl _ => [tbl]
  | _ => []

/-- An upper bound on the accesses that are left -/
def rank : Pc → Nat
  | .find l _ => l + 1
  | .read l _ => 4 * l + 1
  | .alloc l _ => 4 * l
  | .install l _ _ => 4 * l - 1
  | .delete l _ _ => 4 * l - 2
  | .slot _ => 1

end Pc

structure ObjSpace (n : Nat) where
  root : Slot Word entries
  mem : Memory Word Word entries
  /-- Pages that are in use -/
  live : List Word
  thread : Fin n → Option (Request × Pc)
  obtained : List Word
  freed : List Word
  history : List (Event n)

namespace ObjSpace

variable {n : Nat}

def load (s : ObjSpace n) (ptr : Slot Word entries) : Word := s.mem ptr.1 ptr.2

def store (s : ObjSpace n) (ptr : Slot Word entries) (w : Word) : ObjSpace n :=
  { s with mem := write s.mem ptr w }

/-- What `Buddy::alloc (0)` may return -/
def Usable (s : ObjSpace n) (page : Word) : Prop := page ≠ 0#64 ∧ page ∉ s.live

instance (s : ObjSpace n) (page : Word) : Decidable (s.Usable page) :=
  inferInstanceAs (Decidable (_ ∧ _))

/-- `new Captable`: the page, with every slot null -/
def construct (s : ObjSpace n) (page : Word) : ObjSpace n :=
  { s with
    mem := Function.update s.mem page fun _ => 0#64
    live := page :: s.live
    obtained := page :: s.obtained }

/-- `delete tbl` -/
def free (s : ObjSpace n) (tbl : Word) : ObjSpace n :=
  { s with live := s.live.erase tbl, freed := tbl :: s.freed }

/-- The call of thread `i` goes on at `pc`. -/
def goto (s : ObjSpace n) (i : Fin n) (req : Request) (pc : Pc) : ObjSpace n :=
  { s with thread := Function.update s.thread i (some (req, pc)) }

/-- The call of thread `i` returns. -/
def done (s : ObjSpace n) (i : Fin n) (req : Request) (out : Outcome) : ObjSpace n :=
  { s with
    thread := Function.update s.thread i none
    history := ⟨i, req, out⟩ :: s.history }

/-- `walk` returns a pointer that is no slot, to `update` or `insert`. -/
def returned (s : ObjSpace n) (i : Fin n) (req : Request) (ptr : Ptr Empty) : ObjSpace n :=
  match req, ptr with
  | .update _ _ old, .null => s.done i req (.updated .insMem old)
  | .update _ _ old, .hole => s.done i req (.updated .success old)
  | .insert _ _, .null => s.done i req (.inserted .insMem)
  | _, _ => s.done i req .fault

/-- One access of the call `req` of thread `i`; `answer` is the allocator's. -/
def access (s : ObjSpace n) (i : Fin n) (req : Request) (answer : Option Word) : Pc → ObjSpace n
  | .find l ptr =>
      let cte := s.load ptr
      if cte = 0#64 ∨ l = 0 then s.done i req (.found ⟨cte⟩)
      else s.goto i req (.find (l - 1) (cte, capIndex req.sel (l - 1)))
  | .read l ptr =>
      let cte := s.load ptr
      if cte ≠ 0#64 then s.goto i req (.enter req.sel l cte)
      else if req.makes then s.goto i req (.alloc l ptr)
      else s.returned i req .hole
  | .alloc l ptr =>
      match answer with
      | none => s.returned i req .null
      | some page =>
          if s.Usable page then (s.construct page).goto i req (.install l ptr page)
          else s.returned i req .null
  | .install l ptr tbl =>
      if s.load ptr = 0#64 then (s.store ptr tbl).goto i req (.enter req.sel l tbl)
      else s.goto i req (.delete l tbl (s.load ptr))
  | .delete l tbl cte => (s.free tbl).goto i req (.enter req.sel l cte)
  | .slot ptr =>
      match req with
      | .lookup _ => s.done i req .fault
      | .insert _ cap =>
          if s.load ptr = 0#64 then (s.store ptr cap.val).done i req (.inserted .success)
          else s.done i req (.inserted .badCap)
      | .update _ cap _ => (s.store ptr cap.val).done i req (.updated .success ⟨s.load ptr⟩)

/-- The first access of a call -/
def begin (s : ObjSpace n) : Request → Pc
  | .lookup _ => .find objLev s.root
  | _ => .read objLev s.root

end ObjSpace

/-- What happens next: an idle thread makes a call, or one in a call makes its access. -/
inductive Move (n : Nat) where
  | call (i : Fin n) (req : Request)
  | act (i : Fin n) (answer : Option Word)
  deriving DecidableEq

/-- The calls of a schedule keep what their callers see to. -/
def Move.Valid {n : Nat} : Move n → Prop
  | .call _ req => req.Valid
  | .act _ _ => True

/-- The move is an access of thread `i`. -/
def Move.actsFor {n : Nat} (i : Fin n) : Move n → Bool
  | .call _ _ => false
  | .act j _ => j = i

namespace ObjSpace

variable {n : Nat}

def step (move : Move n) (s : ObjSpace n) : ObjSpace n :=
  match move with
  | .call i req =>
      match s.thread i with
      | none => s.goto i req (s.begin req)
      | some _ => s
  | .act i answer =>
      match s.thread i with
      | none => s
      | some (req, pc) => s.access i req answer pc

/-- The states after the moves of a schedule, one after the other -/
def run (s : ObjSpace n) (moves : List (Move n)) : ObjSpace n := moves.foldl (fun s move => step move s) s

/-- A new object space: the root is null and no call is in progress. -/
def create (root : Slot Word entries) (mem : Memory Word Word entries) (others : List Word) : ObjSpace n where
  root
  mem := write mem root 0#64
  live := root.1 :: others
  thread := fun _ => none
  obtained := []
  freed := []
  history := []

end ObjSpace

/-! ## What the calls are for -/

/-- The effect of a call on the capabilities -/
def Event.effect {n : Nat} (e : Event n) (m : Caps) : Caps :=
  match e.request, e.outcome with
  | .insert sel cap, .inserted .success => m.store sel cap
  | .update sel cap _, .updated .success _ => m.store sel cap
  | _, _ => m

/-- The call returned what the map operation returns. -/
def Event.Correct {n : Nat} (e : Event n) (m : Caps) : Prop :=
  match e.request, e.outcome with
  | .lookup sel, .found cap => cap = m.lookup sel
  | .insert sel cap, .inserted sts => ∃ memory, (sts, e.effect m) = m.insert sel cap memory
  | .update sel cap _, .updated sts old => ∃ memory, (sts, old, e.effect m) = m.update sel cap memory
  | _, _ => False

/-- The capabilities that a history, newest call first, has stored -/
def mapOf {n : Nat} : List (Event n) → Caps
  | [] => Caps.empty
  | e :: earlier => e.effect (mapOf earlier)

/-- Every call of a history returned what it had to, after the calls before it. -/
def Linear {n : Nat} : List (Event n) → Prop
  | [] => True
  | e :: earlier => Linear earlier ∧ e.Correct (mapOf earlier)

/-! ## The tree of Captables -/

theorem capKind_zero (l : Nat) : capKind l 0#64 = .hole := rfl

theorem capKind_table {l : Nat} (pos : l ≠ 0) {w : Word} (nonzero : w ≠ 0#64) : capKind l w = .table w := by
  simp [capKind, nonzero, pos]

theorem val_capIndex (sel : Word) (l : Nat) : (capIndex sel l).val = sel.toNat / entries ^ l % entries := by
  have unit : 2 ^ (l * bpl) = entries ^ l := by
    rw [Nat.mul_comm, Nat.pow_mul]
    rfl
  show (sel >>> (l * bpl)).toNat % entries = _
  rw [BitVec.toNat_ushiftRight, Nat.shiftRight_eq_div_pow, unit]

/-- Two selectors have the same place if their walks take the same indices. -/
theorem key_eq_iff (x y : Word) :
    Caps.key x = Caps.key y ↔ ∀ l, 0 ≤ l → l < objLev → capIndex x l = capIndex y l := by
  have digits := digits_agree (B := entries) (by decide) x.toNat y.toNat objLev 0
  rw [Nat.zero_add, Nat.pow_zero, Nat.div_one, Nat.div_one] at digits
  have width : objNum = entries ^ objLev := rfl
  rw [Caps.key, Caps.key, Fin.mk.injEq, width, ← digits]
  simp only [Fin.ext_iff, val_capIndex]

theorem key_ofNat (k : Fin objNum) : Caps.key (BitVec.ofNat 64 k) = k := by
  apply Fin.ext
  have small : k.val < 2 ^ 64 := lt_trans k.isLt (by decide)
  show (BitVec.ofNat 64 k.val).toNat % objNum = k.val
  rw [BitVec.toNat_ofNat, Nat.mod_eq_of_lt small, Nat.mod_eq_of_lt k.isLt]

/-- The tree in the memory below the slot `root` -/
def capTree (root : Slot Word entries) (mem : Memory Word Word entries) : Tree Word Word entries :=
  treeOf capKind mem objLev (mem root.1 root.2)

/-- `ptr` is the slot of level `l` on the walk for `sel`. -/
def At (root : Slot Word entries) (mem : Memory Word Word entries) (sel : Word) (l : Nat)
    (ptr : Slot Word entries) : Prop :=
  slotOf capKind mem (capIndex sel) l objLev root = some ptr

/-- The capability that a search has found -/
def capOf : Option Word → Capability
  | none => .null
  | some w => ⟨w⟩

/-- The capabilities that are stored in the tree -/
def capsIn (root : Slot Word entries) (mem : Memory Word Word entries) : Caps := fun k =>
  capOf ((capTree root mem).find (capIndex (BitVec.ofNat 64 k)) objLev).2

section Tree

variable {root : Slot Word entries} {mem : Memory Word Word entries}

theorem capsIn_key (sel : Word) :
    capsIn root mem (Caps.key sel) = capOf ((capTree root mem).find (capIndex sel) objLev).2 := by
  have agree := (key_eq_iff (BitVec.ofNat 64 (Caps.key sel)) sel).mp (key_ofNat _)
  unfold capsIn capTree
  rw [find_treeOf_agree (capIndex sel) objLev _ fun l _ high => agree l (Nat.zero_le l) high]

theorem at_root (sel : Word) : At root mem sel objLev root := slotOf_self mem _ _ _

theorem At.le {sel : Word} {l : Nat} {ptr : Slot Word entries} (at_ : At root mem sel l ptr) : l ≤ objLev :=
  slotOf_le at_

theorem At.reaches {sel : Word} {l : Nat} {ptr : Slot Word entries} (at_ : At root mem sel l ptr) :
    Tree.Reaches (capIndex sel) l objLev (capTree root mem) :=
  slotOf_reaches at_

theorem At.subAt {sel : Word} {l : Nat} {ptr : Slot Word entries} (at_ : At root mem sel l ptr) :
    Tree.subAt (capIndex sel) l objLev (capTree root mem) = treeOf capKind mem l (mem ptr.1 ptr.2) :=
  slotOf_subAt at_

theorem At.down {sel cte : Word} {l : Nat} {ptr : Slot Word entries} (at_ : At root mem sel l ptr)
    (pos : l ≠ 0) (word : mem ptr.1 ptr.2 = cte) (nonzero : cte ≠ 0#64) :
    At root mem sel (l - 1) (cte, capIndex sel (l - 1)) := by
  obtain ⟨k, rfl⟩ : ∃ k, l = k + 1 := ⟨l - 1, by omega⟩
  rw [Nat.add_sub_cancel]
  exact slotOf_down at_ (by rw [word, capKind_table pos nonzero])

/-- The owner of a slot: the root itself or a table of the tree. -/
theorem At.owner {sel : Word} {l : Nat} {ptr : Slot Word entries} (at_ : At root mem sel l ptr) :
    ptr.1 = root.1 ∨ ptr.1 ∈ (capTree root mem).pages := by
  by_cases top : l = objLev
  · subst top
    rw [At, slotOf_self] at at_
    exact Or.inl (congrArg Prod.fst (Option.some.inj at_)).symm
  · exact Or.inr (slotOf_mem_pages at_ (Ne.symm top))

/-- What a walk finds in an empty slot, or at level 0 -/
theorem find_at {sel : Word} {l : Nat} {ptr : Slot Word entries} (at_ : At root mem sel l ptr)
    (bare : mem ptr.1 ptr.2 = 0#64 ∨ l = 0) :
    capsIn root mem (Caps.key sel) = ⟨mem ptr.1 ptr.2⟩ := by
  rw [capsIn_key, Tree.find_subAt _ _ at_.reaches (fun _ _ _ => rfl) at_.le, at_.subAt]
  by_cases empty : mem ptr.1 ptr.2 = 0#64
  · rw [empty, treeOf_hole mem (capKind_zero l)]
    rfl
  · obtain rfl := bare.resolve_left empty
    rw [treeOf_leaf mem (by simp [capKind, empty])]
    rfl

/-- Slots that exist stay, and so do the pointers in them. -/
def Persists (root : Slot Word entries) (mem mem' : Memory Word Word entries) : Prop :=
  ∀ sel l ptr, At root mem sel l ptr → At root mem' sel l ptr ∧
    (l ≠ 0 → mem ptr.1 ptr.2 ≠ 0#64 → mem' ptr.1 ptr.2 = mem ptr.1 ptr.2)

variable (nodup : (capTree root mem).pages.Nodup) (apart : root.1 ∉ (capTree root mem).pages)
include nodup apart

section Write

variable {sel : Word} {l : Nat} {ptr : Slot Word entries} (at_ : At root mem sel l ptr)
  (bare : mem ptr.1 ptr.2 = 0#64 ∨ l = 0) (w : Word)
include at_

theorem capTree_write :
    capTree root (write mem ptr w) =
      Tree.modify (capIndex sel) l (treeOf capKind (write mem ptr w) l w) objLev (capTree root mem) :=
  treeOf_write w at_ nodup apart

include bare

theorem persists_write : Persists root mem (write mem ptr w) := by
  intro sel' l' ptr' at'
  refine ⟨?_, fun pos word => write_ne mem ptr w fun same => ?_⟩
  · unfold At at at' ⊢
    rw [slotOf_eq_slot] at at' ⊢
    rw [← capTree, capTree_write nodup apart at_ w]
    refine Tree.slot_modify _ _ _ _ at' at_.reaches fun p sub table => ?_
    rw [at_.subAt] at table
    rcases bare with empty | rfl
    · rw [empty, treeOf_hole mem (capKind_zero l)] at table
      cases table
    · unfold treeOf at table
      split at table <;> cases table
  · -- the same slot would have the same level, and then it was not empty
    obtain rfl : ptr' = ptr := same
    obtain rfl := slotOf_level nodup apart at' at_
    exact bare.elim word pos

end Write

/-- Storing a capability in its slot -/
theorem capsIn_write {sel : Word} {ptr : Slot Word entries} (at_ : At root mem sel 0 ptr) (cap : Capability) :
    capsIn root (write mem ptr cap.val) = (capsIn root mem).store sel cap ∧
      (capTree root (write mem ptr cap.val)).pages.Perm (capTree root mem).pages := by
  have tree := capTree_write nodup apart at_ cap.val
  constructor
  · funext k
    unfold Caps.store
    by_cases here : k = Caps.key sel
    · subst here
      have found := find_at (persists_write nodup apart at_ (Or.inr rfl) cap.val _ _ _ at_).1 (Or.inr rfl)
      rw [Function.update_self, found, write_self]
    · rw [Function.update_of_ne here, capsIn, capsIn, tree]
      have differ : ¬ ∀ l, 0 ≤ l → l < objLev → capIndex (BitVec.ofNat 64 k) l = capIndex sel l := by
        rw [← key_eq_iff, key_ofNat]
        exact here
      have split : ∃ l, 0 ≤ l ∧ l < objLev ∧ capIndex (BitVec.ofNat 64 k) l ≠ capIndex sel l := by
        by_contra none
        exact differ fun l low high => by
          by_contra ne
          exact none ⟨l, low, high, ne⟩
      rw [Tree.find_modify_other _ _ _ split]
  · obtain ⟨rest, before, after⟩ := Tree.pages_modify (capIndex sel) 0 objLev (capTree root mem) at_.reaches
    have leaf : ∀ (mem : Memory Word Word entries) (w : Word), (treeOf capKind mem 0 w).pages = [] := by
      intro mem w
      unfold treeOf
      split <;> rfl
    rw [tree]
    refine (after _).trans ?_
    rw [at_.subAt, leaf] at before
    rw [leaf]
    exact before.symm

/-- Installing an empty table in an empty slot -/
theorem capsIn_install {sel tbl : Word} {l : Nat} {ptr : Slot Word entries} (at_ : At root mem sel l ptr)
    (pos : l ≠ 0) (empty : mem ptr.1 ptr.2 = 0#64) (nonzero : tbl ≠ 0#64) (zeroed : mem tbl = fun _ => 0#64)
    (fresh : tbl ≠ ptr.1) :
    capsIn root (write mem ptr tbl) = capsIn root mem ∧
      (capTree root (write mem ptr tbl)).pages.Perm (tbl :: (capTree root mem).pages) := by
  have tree := capTree_write nodup apart at_ tbl
  obtain ⟨k, rfl⟩ : ∃ k, l = k + 1 := ⟨l - 1, by omega⟩
  have new : treeOf capKind (write mem ptr tbl) (k + 1) tbl = .table tbl fun _ => .hole := by
    rw [treeOf_table _ (capKind_table pos nonzero), write_page_ne mem ptr tbl fresh, zeroed]
    congr 1
    funext i
    exact treeOf_hole _ (capKind_zero k)
  have old : Tree.subAt (capIndex sel) (k + 1) objLev (capTree root mem) = .hole := by
    rw [at_.subAt, empty, treeOf_hole mem (capKind_zero _)]
  rw [new] at tree
  constructor
  · funext j
    unfold capsIn
    rw [tree]
    by_cases through : ∀ i, k + 1 ≤ i → i < objLev → capIndex (BitVec.ofNat 64 j) i = capIndex sel i
    · rw [Tree.find_modify_same _ _ _ at_.reaches through at_.le,
        Tree.find_subAt _ _ at_.reaches through at_.le, old]
      rfl
    · have split : ∃ i, k + 1 ≤ i ∧ i < objLev ∧ capIndex (BitVec.ofNat 64 j) i ≠ capIndex sel i := by
        by_contra none
        exact through fun i low high => by
          by_contra ne
          exact none ⟨i, low, high, ne⟩
      rw [Tree.find_modify_other _ _ _ split]
  · obtain ⟨rest, before, after⟩ :=
      Tree.pages_modify (capIndex sel) (k + 1) objLev (capTree root mem) at_.reaches
    rw [tree]
    refine (after _).trans ?_
    rw [old] at before
    simp only [Tree.pages, List.nil_append] at before ⊢
    have row : ((List.finRange entries).flatMap fun _ => ([] : List Word)) = [] := by simp
    rw [row]
    exact before.symm.cons tbl

omit nodup apart in
/-- Writing to a page outside the tree changes nothing. -/
theorem capTree_outside {page : Word} (out : page ∉ (capTree root mem).pages) (other : page ≠ root.1)
    (contents : Fin entries → Word) :
    capTree root (Function.update mem page contents) = capTree root mem ∧
      Persists root mem (Function.update mem page contents) := by
  have word : Function.update mem page contents root.1 root.2 = mem root.1 root.2 := by
    rw [Function.update_of_ne (Ne.symm other)]
  have same : ∀ p ∈ (capTree root mem).pages, Function.update mem page contents p = mem p := by
    intro p member
    have ne : p ≠ page := fun e => out (e ▸ member)
    exact Function.update_of_ne ne _ _
  refine ⟨?_, fun sel l ptr at_ => ⟨?_, fun _ _ => ?_⟩⟩
  · unfold capTree
    rw [word]
    exact treeOf_congr _ _ same
  · unfold At
    rw [slotOf_congr (fun _ => word) same]
    exact at_
  · rcases at_.owner with top | member
    · rw [top, Function.update_of_ne (Ne.symm other)]
    · rw [same _ member]

end Tree

/-! ## Who owns which table -/

/-- The books on the tables: those owned are different, in use and not the page that
holds the root; those obtained are owned or freed. -/
structure Custody (root : Word) (own live obtained freed : List Word) : Prop where
  nodup : own.Nodup
  apart : root ∉ own
  inUse : ∀ p ∈ root :: own, p ∈ live
  books : obtained.Perm (own ++ freed)

namespace Custody

variable {root tbl : Word} {own own' live obtained freed : List Word}

theorem perm (custody : Custody root own live obtained freed) (same : own'.Perm own) :
    Custody root own' live obtained freed where
  nodup := same.nodup_iff.mpr custody.nodup
  apart := fun member => custody.apart (same.mem_iff.mp member)
  inUse := by
    intro p member
    exact custody.inUse p ((same.cons root).mem_iff.mp member)
  books := custody.books.trans (same.symm.append_right freed)

theorem take (custody : Custody root own live obtained freed) (fresh : tbl ∉ live) :
    Custody root (tbl :: own) (tbl :: live) (tbl :: obtained) freed where
  nodup := List.nodup_cons.mpr
    ⟨fun member => fresh (custody.inUse tbl (List.mem_cons_of_mem _ member)), custody.nodup⟩
  apart := by
    intro member
    rcases List.mem_cons.mp member with same | old
    · exact fresh (same ▸ custody.inUse root List.mem_cons_self)
    · exact custody.apart old
  inUse := by
    intro p member
    rcases List.mem_cons.mp member with rfl | rest
    · exact List.mem_cons_of_mem _ (custody.inUse p List.mem_cons_self)
    · rcases List.mem_cons.mp rest with rfl | old
      · exact List.mem_cons_self
      · exact List.mem_cons_of_mem _ (custody.inUse p (List.mem_cons_of_mem _ old))
  books := custody.books.cons tbl

theorem free (custody : Custody root (tbl :: own) live obtained freed) :
    Custody root own (live.erase tbl) obtained (tbl :: freed) where
  nodup := (List.nodup_cons.mp custody.nodup).2
  apart := fun member => custody.apart (List.mem_cons_of_mem _ member)
  inUse := by
    intro p member
    have other : p ≠ tbl := by
      rintro rfl
      rcases List.mem_cons.mp member with same | old
      · exact custody.apart (same ▸ List.mem_cons_self)
      · exact (List.nodup_cons.mp custody.nodup).1 old
    have used : p ∈ live := by
      rcases List.mem_cons.mp member with rfl | old
      · exact custody.inUse p List.mem_cons_self
      · exact custody.inUse p (List.mem_cons_of_mem _ (List.mem_cons_of_mem _ old))
    exact (List.mem_erase_of_ne other).mpr used
  books := custody.books.trans List.perm_middle.symm

end Custody

/-! ## The invariant -/

/-- `walk` is part of every call but `lookup`. -/
def Request.walks : Request → Bool
  | .lookup _ => false
  | _ => true

/-- A call stands where its selector leads; the table it holds is empty. -/
def Stands (root : Slot Word entries) (mem : Memory Word Word entries) (req : Request) : Pc → Prop
  | .find l ptr => req.walks = false ∧ At root mem req.sel l ptr
  | .read l ptr => req.walks = true ∧ l ≠ 0 ∧ At root mem req.sel l ptr
  | .alloc l ptr => req.makes = true ∧ l ≠ 0 ∧ At root mem req.sel l ptr
  | .install l ptr tbl =>
      req.makes = true ∧ l ≠ 0 ∧ At root mem req.sel l ptr ∧ tbl ≠ 0#64 ∧ mem tbl = fun _ => 0#64
  | .delete l _ cte =>
      req.makes = true ∧ l ≠ 0 ∧ ∃ ptr, At root mem req.sel l ptr ∧ mem ptr.1 ptr.2 = cte ∧ cte ≠ 0#64
  | .slot ptr => req.walks = true ∧ At root mem req.sel 0 ptr

theorem Request.walks_of_makes {req : Request} (makes : req.makes = true) : req.walks = true := by
  cases req with
  | lookup sel => cases makes
  | insert sel cap => rfl
  | update sel cap old => rfl

theorem Stands.persist {root : Slot Word entries} {mem mem' : Memory Word Word entries} {req : Request}
    (persists : Persists root mem mem') :
    ∀ {pc : Pc}, (∀ tbl ∈ pc.holding, mem' tbl = mem tbl) → Stands root mem req pc → Stands root mem' req pc
  | .find _ _, _, ⟨looks, at_⟩ => ⟨looks, (persists _ _ _ at_).1⟩
  | .read _ _, _, ⟨walks, pos, at_⟩ => ⟨walks, pos, (persists _ _ _ at_).1⟩
  | .alloc _ _, _, ⟨makes, pos, at_⟩ => ⟨makes, pos, (persists _ _ _ at_).1⟩
  | .install _ _ tbl, same, ⟨makes, pos, at_, nonzero, zeroed⟩ =>
      ⟨makes, pos, (persists _ _ _ at_).1, nonzero, (same tbl List.mem_cons_self).trans zeroed⟩
  | .delete _ _ _, _, ⟨makes, pos, ptr, at_, word, nonzero⟩ =>
      have kept := persists _ _ _ at_
      ⟨makes, pos, ptr, kept.1, (kept.2 pos (word ▸ nonzero)).trans word, nonzero⟩
  | .slot _, _, ⟨walks, at_⟩ => ⟨walks, (persists _ _ _ at_).1⟩

theorem Stands.enter {root : Slot Word entries} {mem : Memory Word Word entries} {req : Request} {l : Nat}
    {cte : Word} (walks : req.walks = true)
    (at_ : At root mem req.sel (l - 1) (cte, capIndex req.sel (l - 1))) :
    Stands root mem req (.enter req.sel l cte) := by
  unfold Pc.enter
  split
  · rename_i bottom
    exact ⟨walks, bottom ▸ at_⟩
  · rename_i above
    exact ⟨walks, above, at_⟩

theorem Pc.holding_enter (sel : Word) (l : Nat) (cte : Word) : (Pc.enter sel l cte).holding = [] := by
  unfold Pc.enter
  split <;> rfl

namespace ObjSpace

variable {n : Nat}

/-- The table that a thread holds -/
def holds : Option (Request × Pc) → List Word
  | none => []
  | some (_, pc) => pc.holding

/-- The tables that the threads hold -/
def held (s : ObjSpace n) : List Word := (List.finRange n).flatMap fun i => holds (s.thread i)

/-- The tables of the tree and those that the threads hold -/
def own (s : ObjSpace n) : List Word := (capTree s.root s.mem).pages ++ s.held

structure Coherent (s : ObjSpace n) : Prop where
  custody : Custody s.root.1 s.own s.live s.obtained s.freed
  stands : ∀ i req pc, s.thread i = some (req, pc) → req.Valid ∧ Stands s.root s.mem req pc
  valid : ∀ e ∈ s.history, e.request.Valid
  linear : Linear s.history
  caps : capsIn s.root s.mem = mapOf s.history

/-- The tables that the other threads hold -/
def others (s : ObjSpace n) (i : Fin n) : List Word :=
  ((List.finRange n).erase i).flatMap fun j => holds (s.thread j)

theorem held_perm (s : ObjSpace n) (i : Fin n) : s.held.Perm (holds (s.thread i) ++ s.others i) :=
  flatMap_perm holds s.thread i

theorem held_goto (s : ObjSpace n) (i : Fin n) (req : Request) (pc : Pc) :
    (s.goto i req pc).held.Perm (pc.holding ++ s.others i) :=
  flatMap_update_perm holds s.thread i (some (req, pc))

theorem held_done (s : ObjSpace n) (i : Fin n) (req : Request) (out : Outcome) :
    (s.done i req out).held.Perm (s.others i) :=
  flatMap_update_perm holds s.thread i none

theorem held_done_of {s : ObjSpace n} {i : Fin n} (free : holds (s.thread i) = []) (req : Request) (out : Outcome) :
    (s.done i req out).held.Perm s.held := by
  have before := s.held_perm i
  rw [free] at before
  exact (s.held_done i req out).trans before.symm

theorem held_goto_of {s : ObjSpace n} {i : Fin n} {pc : Pc} (same : pc.holding = holds (s.thread i))
    (req : Request) : (s.goto i req pc).held.Perm s.held := by
  have after := s.held_goto i req pc
  rw [same] at after
  exact after.trans (s.held_perm i).symm

theorem mem_held {s : ObjSpace n} {i : Fin n} {req : Request} {pc : Pc} (busy : s.thread i = some (req, pc))
    {tbl : Word} (member : tbl ∈ pc.holding) : tbl ∈ s.held := by
  refine List.mem_flatMap.mpr ⟨i, List.mem_finRange i, ?_⟩
  rw [busy]
  exact member

namespace Coherent

variable {s : ObjSpace n} (coherent : s.Coherent) {i : Fin n} {req : Request}
include coherent

theorem nodup_pages : (capTree s.root s.mem).pages.Nodup := (List.nodup_append.mp coherent.custody.nodup).1

theorem root_apart : s.root.1 ∉ (capTree s.root s.mem).pages :=
  fun member => coherent.custody.apart (List.mem_append_left _ member)

/-- A held table is no place where a walker can store. -/
theorem held_apart {sel tbl : Word} {l : Nat} {ptr : Slot Word entries} (at_ : At s.root s.mem sel l ptr)
    (member : tbl ∈ s.held) : tbl ≠ ptr.1 := by
  rintro rfl
  rcases at_.owner with top | inside
  · exact coherent.custody.apart (top ▸ List.mem_append_right _ member)
  · exact (List.nodup_append.mp coherent.custody.nodup).2.2 _ inside _ member rfl

/-- After a change of the memory that keeps slots and held tables, the calls of the
other threads stand where they stood. -/
theorem stands_others {mem' : Memory Word Word entries} (persists : Persists s.root s.mem mem')
    (keeps : ∀ tbl ∈ s.held, mem' tbl = s.mem tbl) (next : Option (Request × Pc))
    (mine : ∀ req pc, next = some (req, pc) → req.Valid ∧ Stands s.root mem' req pc) :
    ∀ j req pc, Function.update s.thread i next j = some (req, pc) → req.Valid ∧ Stands s.root mem' req pc := by
  intro j req pc busy
  by_cases here : j = i
  · subst here
    rw [Function.update_self] at busy
    exact mine req pc busy
  · rw [Function.update_of_ne here] at busy
    obtain ⟨valid, stands⟩ := coherent.stands j req pc busy
    exact ⟨valid, stands.persist persists fun tbl member => keeps tbl (mem_held busy member)⟩

omit coherent in
theorem persists_refl (root : Slot Word entries) (mem : Memory Word Word entries) : Persists root mem mem :=
  fun _ _ _ at_ => ⟨at_, fun _ _ => rfl⟩

/-- A call goes on without touching anything. -/
theorem goto (valid : req.Valid) {pc : Pc} (same : pc.holding = holds (s.thread i))
    (stands : Stands s.root s.mem req pc) : (s.goto i req pc).Coherent where
  custody := coherent.custody.perm ((held_goto_of same req).append_left _)
  stands := coherent.stands_others (persists_refl _ _) (fun _ _ => rfl) _ fun req' pc' same' => by
    obtain ⟨rfl, rfl⟩ := Prod.mk.inj (Option.some.inj same')
    exact ⟨valid, stands⟩
  valid := coherent.valid
  linear := coherent.linear
  caps := coherent.caps

/-- A call returns without touching anything. -/
theorem done (valid : req.Valid) (free : holds (s.thread i) = []) {out : Outcome}
    (correct : (⟨i, req, out⟩ : Event n).Correct (mapOf s.history))
    (quiet : (⟨i, req, out⟩ : Event n).effect (mapOf s.history) = mapOf s.history) :
    (s.done i req out).Coherent where
  custody := coherent.custody.perm ((held_done_of free req out).append_left _)
  stands := coherent.stands_others (persists_refl _ _) (fun _ _ => rfl) _ fun _ _ none => nomatch none
  valid := by
    intro e member
    rcases List.mem_cons.mp member with rfl | old
    · exact valid
    · exact coherent.valid e old
  linear := ⟨coherent.linear, correct⟩
  caps := coherent.caps.trans quiet.symm

/-- A call stores its capability and returns. -/
theorem put (valid : req.Valid) (free : holds (s.thread i) = []) {out : Outcome} {cap : Capability}
    {ptr : Slot Word entries} (at_ : At s.root s.mem req.sel 0 ptr)
    (correct : (⟨i, req, out⟩ : Event n).Correct (mapOf s.history))
    (effect : (⟨i, req, out⟩ : Event n).effect (mapOf s.history) = (mapOf s.history).store req.sel cap) :
    ((s.store ptr cap.val).done i req out).Coherent := by
  have written := capsIn_write coherent.nodup_pages coherent.root_apart at_ cap
  have persists := persists_write coherent.nodup_pages coherent.root_apart at_ (Or.inr rfl) cap.val
  have keeps : ∀ tbl ∈ s.held, write s.mem ptr cap.val tbl = s.mem tbl := fun tbl member =>
    write_page_ne s.mem ptr cap.val (coherent.held_apart at_ member)
  refine ⟨coherent.custody.perm ?_, ?_, ?_, ⟨coherent.linear, correct⟩, ?_⟩
  · exact written.2.append (held_done_of free req out)
  · exact coherent.stands_others persists keeps _ fun _ _ none => nomatch none
  · intro e member
    rcases List.mem_cons.mp member with rfl | old
    · exact valid
    · exact coherent.valid e old
  · refine written.1.trans ?_
    rw [coherent.caps]
    exact effect.symm

/-- A call obtains a table. -/
theorem take (valid : req.Valid) (free : holds (s.thread i) = []) {page : Word} (usable : s.Usable page) {l : Nat}
    {ptr : Slot Word entries} (makes : req.makes = true) (pos : l ≠ 0) (at_ : At s.root s.mem req.sel l ptr) :
    ((s.construct page).goto i req (.install l ptr page)).Coherent := by
  have outside : page ∉ s.own := fun member => usable.2 (coherent.custody.inUse page (List.mem_cons_of_mem _ member))
  have other : page ≠ s.root.1 := fun e => usable.2 (e ▸ coherent.custody.inUse _ List.mem_cons_self)
  have unlinked : page ∉ (capTree s.root s.mem).pages := fun member => outside (List.mem_append_left _ member)
  obtain ⟨tree, persists⟩ := capTree_outside unlinked other fun _ => 0#64
  have keeps : ∀ tbl ∈ s.held, Function.update s.mem page (fun _ => 0#64) tbl = s.mem tbl := by
    intro tbl member
    have ne : tbl ≠ page := fun e => outside (List.mem_append_right _ (e ▸ member))
    exact Function.update_of_ne ne _ _
  refine ⟨(coherent.custody.take usable.2).perm ?_, ?_, coherent.valid, coherent.linear, ?_⟩
  · have before := s.held_perm i
    rw [free] at before
    have after := (s.construct page).held_goto i req (.install l ptr page)
    show ((capTree s.root (Function.update s.mem page fun _ => 0#64)).pages ++ _).Perm _
    rw [tree]
    exact ((after.trans (before.symm.cons page)).append_left _).trans List.perm_middle
  · refine coherent.stands_others persists keeps _ fun req' pc' same => ?_
    obtain ⟨rfl, rfl⟩ := Prod.mk.inj (Option.some.inj same)
    exact ⟨valid, makes, pos, (persists _ _ _ at_).1, usable.1, Function.update_self ..⟩
  · show capsIn s.root (Function.update s.mem page fun _ => 0#64) = mapOf s.history
    rw [← coherent.caps]
    unfold capsIn
    rw [tree]

/-- A call gives up its table. -/
theorem drop {l : Nat} {tbl cte : Word} (busy : s.thread i = some (req, .delete l tbl cte)) (valid : req.Valid)
    {pc : Pc} (hands : pc.holding = []) (stands : Stands s.root s.mem req pc) :
    ((s.free tbl).goto i req pc).Coherent := by
  refine ⟨?_, ?_, coherent.valid, coherent.linear, coherent.caps⟩
  · have before := s.held_perm i
    rw [busy] at before
    have mine : s.own.Perm (tbl :: ((capTree s.root s.mem).pages ++ s.others i)) :=
      (before.append_left _).trans List.perm_middle
    have after := (s.free tbl).held_goto i req pc
    rw [hands] at after
    exact (coherent.custody.perm mine.symm).free.perm (after.append_left _)
  · refine coherent.stands_others (persists_refl _ _) (fun _ _ => rfl) _ fun req' pc' same => ?_
    obtain ⟨rfl, rfl⟩ := Prod.mk.inj (Option.some.inj same)
    exact ⟨valid, stands⟩

/-- A call installs its table in the slot, which is still empty. -/
theorem link {l : Nat} {tbl : Word} {ptr : Slot Word entries}
    (busy : s.thread i = some (req, .install l ptr tbl)) (empty : s.load ptr = 0#64) :
    ((s.store ptr tbl).goto i req (.enter req.sel l tbl)).Coherent := by
  obtain ⟨valid, makes, pos, at_, nonzero, zeroed⟩ := coherent.stands i _ _ busy
  have mine : tbl ∈ s.held := mem_held busy List.mem_cons_self
  have written := capsIn_install coherent.nodup_pages coherent.root_apart at_ pos empty nonzero zeroed
    (coherent.held_apart at_ mine)
  have persists := persists_write coherent.nodup_pages coherent.root_apart at_ (Or.inl empty) tbl
  have keeps : ∀ tbl' ∈ s.held, write s.mem ptr tbl tbl' = s.mem tbl' := fun tbl' member =>
    write_page_ne s.mem ptr tbl (coherent.held_apart at_ member)
  refine ⟨coherent.custody.perm ?_, ?_, coherent.valid, coherent.linear, written.1.trans coherent.caps⟩
  · -- the table moves from the thread to the tree
    have before := s.held_perm i
    rw [busy] at before
    have after := (s.store ptr tbl).held_goto i req (.enter req.sel l tbl)
    rw [Pc.holding_enter] at after
    refine (written.2.append after).trans ?_
    exact List.perm_middle.symm.trans (before.symm.append_left _)
  · refine coherent.stands_others persists keeps _ fun req' pc' same => ?_
    obtain ⟨rfl, rfl⟩ := Prod.mk.inj (Option.some.inj same)
    refine ⟨valid, Stands.enter (Request.walks_of_makes makes) ?_⟩
    exact (persists _ _ _ at_).1.down pos (write_self s.mem ptr tbl) nonzero

/-- What the history has stored for a selector is what its walk finds. -/
theorem lookup_at {sel : Word} {l : Nat} {ptr : Slot Word entries} (at_ : At s.root s.mem sel l ptr)
    (bare : s.load ptr = 0#64 ∨ l = 0) : (mapOf s.history).lookup sel = ⟨s.load ptr⟩ := by
  rw [← coherent.caps]
  exact find_at at_ bare

/-- `walk` ran out of memory. -/
theorem returned_null (valid : req.Valid) (free : holds (s.thread i) = []) (makes : req.makes = true) :
    (s.returned i req .null).Coherent := by
  cases req with
  | lookup sel => cases makes
  | insert sel cap => exact coherent.done valid free ⟨false, rfl⟩ rfl
  | update sel cap old =>
      refine coherent.done valid free ⟨false, ?_⟩ rfl
      rw [valid.2]
      rfl

/-- `walk` met a hole where nothing is to be stored. -/
theorem returned_hole (valid : req.Valid) (free : holds (s.thread i) = []) (walks : req.walks = true)
    (keeps : req.makes = false) {l : Nat} {ptr : Slot Word entries} (at_ : At s.root s.mem req.sel l ptr)
    (empty : s.load ptr = 0#64) : (s.returned i req .hole).Coherent := by
  cases req with
  | lookup sel => cases walks
  | insert sel cap => cases keeps
  | update sel cap old =>
      obtain ⟨proper, fresh⟩ := valid
      have null : cap = .null := proper (by simpa [Request.makes] using keeps)
      have vacant : (mapOf s.history).lookup sel = .null := by
        refine (coherent.lookup_at at_ (Or.inl empty)).trans ?_
        rw [empty]
        rfl
      refine coherent.done (show Request.Valid (.update sel cap old) from ⟨proper, fresh⟩) free ⟨true, ?_⟩ ?_
      · show (_, old, _) = (_, (mapOf s.history).lookup sel, _)
        rw [vacant, fresh]
        rfl
      · show (mapOf s.history).store sel cap = mapOf s.history
        rw [null, ← vacant]
        exact Function.update_eq_self _ _

/-- **Every access keeps the invariant.** -/
theorem access {pc : Pc} (busy : s.thread i = some (req, pc)) (answer : Option Word) :
    (s.access i req answer pc).Coherent := by
  obtain ⟨valid, stands⟩ := coherent.stands i req pc busy
  have hands : holds (s.thread i) = pc.holding := by rw [busy]; rfl
  cases pc with
  | find l ptr =>
      obtain ⟨looks, at_⟩ := stands
      simp only [ObjSpace.access]
      split
      · rename_i last
        cases req with
        | lookup sel => exact coherent.done valid hands (coherent.lookup_at at_ last).symm rfl
        | insert sel cap => cases looks
        | update sel cap old => cases looks
      · rename_i more
        rw [not_or] at more
        exact coherent.goto valid hands.symm ⟨looks, at_.down more.2 rfl more.1⟩
  | read l ptr =>
      obtain ⟨walks, pos, at_⟩ := stands
      simp only [ObjSpace.access]
      split
      · rename_i nonzero
        refine coherent.goto valid ((Pc.holding_enter _ _ _).trans hands.symm) ?_
        exact Stands.enter walks (at_.down pos rfl nonzero)
      · rename_i empty
        split
        · rename_i makes
          exact coherent.goto valid hands.symm ⟨makes, pos, at_⟩
        · rename_i keeps
          exact coherent.returned_hole valid hands walks (Bool.eq_false_iff.mpr keeps) at_ (not_not.mp empty)
  | alloc l ptr =>
      obtain ⟨makes, pos, at_⟩ := stands
      cases answer with
      | none => exact coherent.returned_null valid hands makes
      | some page =>
          simp only [ObjSpace.access]
          split
          · rename_i usable
            exact coherent.take valid hands usable makes pos at_
          · exact coherent.returned_null valid hands makes
  | install l ptr tbl =>
      simp only [ObjSpace.access]
      split
      · rename_i empty
        exact coherent.link busy empty
      · rename_i lost
        obtain ⟨makes, pos, at_, -⟩ := stands
        exact coherent.goto valid hands.symm ⟨makes, pos, ptr, at_, rfl, lost⟩
  | delete l tbl cte =>
      obtain ⟨makes, pos, ptr, at_, word, nonzero⟩ := stands
      refine coherent.drop busy valid (Pc.holding_enter _ _ _) ?_
      exact Stands.enter (Request.walks_of_makes makes) (at_.down pos word nonzero)
  | slot ptr =>
      obtain ⟨walks, at_⟩ := stands
      have stored := coherent.lookup_at at_ (Or.inr rfl)
      cases req with
      | lookup sel => cases walks
      | insert sel cap =>
          simp only [ObjSpace.access]
          split
          · rename_i empty
            have vacant : (mapOf s.history).lookup sel = .null := stored.trans (by rw [empty]; rfl)
            refine coherent.put valid hands at_ ⟨true, ?_⟩ rfl
            simp [Caps.insert, vacant, Event.effect]
          · rename_i taken
            have occupied : (mapOf s.history).lookup sel ≠ .null := by
              intro null
              exact taken (congrArg Capability.val (stored.symm.trans null))
            refine coherent.done valid hands ⟨true, ?_⟩ rfl
            simp [Caps.insert, occupied, Event.effect]
      | update sel cap old =>
          refine coherent.put valid hands at_ ⟨true, ?_⟩ rfl
          simp only [Caps.update, Event.effect]
          exact congrArg (fun old => (Status.success, old, _)) stored.symm

end Coherent

theorem Coherent.step {s : ObjSpace n} (coherent : s.Coherent) {move : Move n} (valid : move.Valid) :
    (step move s).Coherent := by
  cases move with
  | call i req =>
      unfold ObjSpace.step
      simp only
      split
      · rename_i idle
        refine coherent.goto valid ?_ ?_
        · rw [idle]
          cases req <;> rfl
        · cases req with
          | lookup sel => exact ⟨rfl, at_root sel⟩
          | insert sel cap => exact ⟨rfl, by decide, at_root sel⟩
          | update sel cap old => exact ⟨rfl, by decide, at_root sel⟩
      · exact coherent
  | act i answer =>
      unfold ObjSpace.step
      simp only
      split
      · exact coherent
      · rename_i busy
        exact coherent.access busy answer

theorem Coherent.run {s : ObjSpace n} (coherent : s.Coherent) {moves : List (Move n)}
    (valid : ∀ move ∈ moves, move.Valid) : (s.run moves).Coherent := by
  induction moves generalizing s with
  | nil => exact coherent
  | cons move rest ih =>
      exact ih (coherent.step (valid move List.mem_cons_self)) fun m member =>
        valid m (List.mem_cons_of_mem _ member)

theorem coherent_create (root : Slot Word entries) (mem : Memory Word Word entries) (others : List Word) :
    (create root mem others : ObjSpace n).Coherent := by
  have hole : capTree root (write mem root 0#64) = .hole := by
    unfold capTree
    rw [write_self]
    exact treeOf_hole _ (capKind_zero _)
  have nothing : (create root mem others : ObjSpace n).own = [] := by
    show (capTree root (write mem root 0#64)).pages ++ _ = []
    rw [hole]
    simp [Tree.pages, held, create, holds]
  refine ⟨?_, by rintro _ _ _ ⟨⟩, by rintro _ ⟨⟩, trivial, ?_⟩
  · rw [nothing]
    refine ⟨List.nodup_nil, List.not_mem_nil, fun p member => ?_, List.Perm.refl _⟩
    obtain rfl := List.mem_singleton.mp member
    exact List.mem_cons_self
  · funext k
    show capOf ((capTree root (write mem root 0#64)).find _ _).2 = _
    rw [hole]
    rfl

/-! ## Every call returns -/

theorem thread_done (s : ObjSpace n) (i : Fin n) (req : Request) (out : Outcome) :
    (s.done i req out).thread i = none :=
  Function.update_self ..

theorem thread_goto (s : ObjSpace n) (i : Fin n) (req : Request) (pc : Pc) :
    (s.goto i req pc).thread i = some (req, pc) :=
  Function.update_self ..

/-- The call of thread `i` has just returned. -/
def Returned (s : ObjSpace n) (i : Fin n) (req : Request) : Prop :=
  s.thread i = none ∧ ∃ out earlier, s.history = ⟨i, req, out⟩ :: earlier

theorem returned_done (s : ObjSpace n) (i : Fin n) (req : Request) (out : Outcome) :
    (s.done i req out).Returned i req :=
  ⟨s.thread_done i req out, out, s.history, rfl⟩

theorem returned_returned (s : ObjSpace n) (i : Fin n) (req : Request) (ptr : Ptr Empty) :
    (s.returned i req ptr).Returned i req := by
  unfold returned
  split <;> exact returned_done ..

theorem rank_enter (sel : Word) {l : Nat} (pos : l ≠ 0) (cte : Word) :
    (Pc.enter sel l cte).rank < 4 * l - 2 := by
  unfold Pc.enter
  split
  · show 1 < _
    omega
  · show 4 * (l - 1) + 1 < _
    omega

/-- An access ends the call or brings its end closer. -/
theorem access_rank {s : ObjSpace n} (coherent : s.Coherent) {i : Fin n} {req : Request} {pc : Pc}
    (busy : s.thread i = some (req, pc)) (answer : Option Word) :
    (s.access i req answer pc).Returned i req ∨
      ∃ pc', (s.access i req answer pc).thread i = some (req, pc') ∧ pc'.rank < pc.rank := by
  obtain ⟨-, stands⟩ := coherent.stands i req pc busy
  cases pc with
  | find l ptr =>
      simp only [access]
      split
      · exact Or.inl (returned_done ..)
      · rename_i more
        rw [not_or] at more
        refine Or.inr ⟨_, thread_goto .., ?_⟩
        show l - 1 + 1 < l + 1
        omega
  | read l ptr =>
      have pos := stands.2.1
      simp only [access]
      split
      · refine Or.inr ⟨_, thread_goto .., lt_trans (rank_enter _ pos _) ?_⟩
        show 4 * l - 2 < 4 * l + 1
        omega
      · split
        · exact Or.inr ⟨_, thread_goto .., Nat.lt_succ_self _⟩
        · exact Or.inl (returned_returned ..)
  | alloc l ptr =>
      have pos := stands.2.1
      cases answer with
      | none => exact Or.inl (returned_returned ..)
      | some page =>
          simp only [access]
          split
          · refine Or.inr ⟨_, thread_goto .., ?_⟩
            show 4 * l - 1 < 4 * l
            omega
          · exact Or.inl (returned_returned ..)
  | install l ptr tbl =>
      have pos := stands.2.1
      simp only [access]
      split
      · refine Or.inr ⟨_, thread_goto .., lt_trans (rank_enter _ pos _) ?_⟩
        show 4 * l - 2 < 4 * l - 1
        omega
      · refine Or.inr ⟨_, thread_goto .., ?_⟩
        show 4 * l - 2 < 4 * l - 1
        omega
  | delete l tbl cte => exact Or.inr ⟨_, thread_goto .., rank_enter _ stands.2.1 _⟩
  | slot ptr =>
      cases req with
      | lookup sel => exact Or.inl (returned_done ..)
      | insert sel cap =>
          simp only [access]
          split <;> exact Or.inl (returned_done ..)
      | update sel cap old => exact Or.inl (returned_done ..)

/-- `returned` concerns its own thread. -/
theorem thread_returned {s : ObjSpace n} {i j : Fin n} (other : j ≠ i) (req : Request) (ptr : Ptr Empty) :
    (s.returned i req ptr).thread j = s.thread j := by
  unfold returned
  split <;> exact Function.update_of_ne other _ _

theorem thread_access {s : ObjSpace n} {i j : Fin n} (other : j ≠ i) (req : Request) (answer : Option Word) (pc : Pc) :
    (s.access i req answer pc).thread j = s.thread j := by
  have goto : ∀ (s : ObjSpace n) pc, (s.goto i req pc).thread j = s.thread j := fun _ _ => Function.update_of_ne other _ _
  have done : ∀ (s : ObjSpace n) out, (s.done i req out).thread j = s.thread j := fun _ _ => Function.update_of_ne other _ _
  cases pc with
  | find l ptr =>
      simp only [access]
      split
      · exact done ..
      · exact goto ..
  | read l ptr =>
      simp only [access]
      split
      · exact goto ..
      · split
        · exact goto ..
        · exact thread_returned other ..
  | alloc l ptr =>
      cases answer with
      | none => exact thread_returned other ..
      | some page =>
          simp only [access]
          split
          · exact goto ..
          · exact thread_returned other ..
  | install l ptr tbl =>
      simp only [access]
      split <;> exact goto ..
  | delete l tbl cte => exact goto ..
  | slot ptr =>
      cases req with
      | lookup sel => exact done ..
      | insert sel cap =>
          simp only [access]
          split <;> exact done ..
      | update sel cap old => exact done ..

/-- **Calls are wait-free**: whatever the other threads do, a call returns within as
many accesses of its own as its position has left. -/
theorem returns {moves : List (Move n)} :
    ∀ {s : ObjSpace n}, s.Coherent → (∀ move ∈ moves, move.Valid) → ∀ {i : Fin n} {req : Request} {pc : Pc},
      s.thread i = some (req, pc) → pc.rank ≤ moves.countP (Move.actsFor i) →
      ∃ before after, moves = before ++ after ∧ (s.run before).Returned i req := by
  induction moves with
  | nil =>
      intro s coherent _ i req pc busy enough
      have positive : 0 < pc.rank := by
        have stands := (coherent.stands i req pc busy).2
        cases pc <;> simp only [Pc.rank] <;> first | omega | (obtain ⟨-, pos, -⟩ := stands; omega)
      exact absurd enough (by rw [List.countP_nil]; omega)
  | cons move rest ih =>
      intro s coherent valid i req pc busy enough
      have next := coherent.step (valid move List.mem_cons_self)
      have later := fun m member => valid m (List.mem_cons_of_mem move member)
      -- a move that is not an access of thread `i` leaves its call alone
      have pass : ∀ pc', (step move s).thread i = some (req, pc') → pc'.rank ≤ rest.countP (Move.actsFor i) →
          ∃ before after, move :: rest = before ++ after ∧ (s.run before).Returned i req := by
        intro pc' busy' enough'
        obtain ⟨before, after, split, returned⟩ := ih next later busy' enough'
        exact ⟨move :: before, after, by rw [split]; rfl, returned⟩
      cases move with
      | call j req' =>
          refine pass pc ?_ (by simpa [Move.actsFor] using enough)
          unfold step
          simp only
          split
          · rename_i idle
            have other : i ≠ j := by
              rintro rfl
              rw [idle] at busy
              cases busy
            exact (Function.update_of_ne other _ _).trans busy
          · exact busy
      | act j answer =>
          by_cases mine : j = i
          · subst mine
            have access : step (.act j answer) s = s.access j req answer pc := by simp [step, busy]
            have count : (Move.act j answer :: rest).countP (Move.actsFor j) = rest.countP (Move.actsFor j) + 1 := by
              simp [Move.actsFor]
            rcases access_rank coherent busy answer with returned | ⟨pc', busy', closer⟩
            · refine ⟨[.act j answer], rest, rfl, ?_⟩
              show (step (.act j answer) s).Returned j req
              rw [access]
              exact returned
            · refine pass pc' (by rw [access]; exact busy') ?_
              omega
          · refine pass pc ?_ (by simpa [Move.actsFor, mine] using enough)
            unfold step
            simp only
            split
            · exact busy
            · exact (thread_access (Ne.symm mine) _ _ _).trans busy

/-! ## What a run guarantees -/

/-- An `update` with a capability without permissions obtains no table. -/
def Frugal (s : ObjSpace n) (move : Move n) : Prop :=
  ∀ i answer sel cap old pc, move = .act i answer → s.thread i = some (.update sel cap old, pc) →
    cap.prm = 0#32 → (step move s).obtained = s.obtained

theorem obtained_returned (s : ObjSpace n) (i : Fin n) (req : Request) (ptr : Ptr Empty) :
    (s.returned i req ptr).obtained = s.obtained := by
  unfold returned
  split <;> rfl

theorem Coherent.frugal {s : ObjSpace n} (coherent : s.Coherent) (move : Move n) : s.Frugal move := by
  intro i answer sel cap old pc act busy nothing
  subst act
  have stands := (coherent.stands i _ pc busy).2
  have keeps : (Request.update sel cap old).makes = false := by simp [Request.makes, nothing]
  have act : ObjSpace.step (.act i answer) s = s.access i (.update sel cap old) answer pc := by
    simp [ObjSpace.step, busy]
  rw [act]
  cases pc with
  | find l ptr =>
      simp only [ObjSpace.access]
      split <;> rfl
  | read l ptr =>
      simp only [ObjSpace.access, keeps, Bool.false_eq_true, if_false]
      split
      · rfl
      · exact obtained_returned ..
  | alloc l ptr => exact absurd stands.1 (by rw [keeps]; decide)
  | install l ptr tbl => exact absurd stands.1 (by rw [keeps]; decide)
  | delete l tbl cte => exact absurd stands.1 (by rw [keeps]; decide)
  | slot ptr => rfl

end ObjSpace

namespace Event

variable {n : Nat}

/-- An `insert` at the place `k` that found memory -/
def inserts (k : Fin objNum) (e : Event n) : Bool :=
  match e.request, e.outcome with
  | .insert sel _, .inserted sts => Caps.key sel = k && sts ≠ .insMem
  | _, _ => false

/-- An `insert` at the place `k` that returned SUCCESS -/
def wins (k : Fin objNum) (e : Event n) : Bool :=
  match e.request, e.outcome with
  | .insert sel _, .inserted .success => Caps.key sel = k
  | _, _ => false

/-- An `update` of the place `k` that returned SUCCESS -/
def updates (k : Fin objNum) (e : Event n) : Bool :=
  match e.request, e.outcome with
  | .update sel _ _, .updated .success _ => Caps.key sel = k
  | _, _ => false

/-- What one call means for an `insert` race at `k`: it loses if the place is taken,
wins and takes it if it is empty, and otherwise leaves it alone. -/
theorem race {k : Fin objNum} {e : Event n} {m : Caps} (valid : e.request.Valid) (correct : e.Correct m)
    (keeps : e.updates k = false) :
    (e.inserts k = true ∧ m k = .null ∧ e.wins k = true ∧ e.effect m k ≠ .null) ∨
      (e.inserts k = true ∧ m k ≠ .null ∧ e.wins k = false ∧ e.effect m k = m k) ∨
      (e.inserts k = false ∧ e.wins k = false ∧ e.effect m k = m k) := by
  obtain ⟨i, req, out⟩ := e
  cases req with
  | lookup sel =>
      cases out <;> exact Or.inr (Or.inr ⟨rfl, rfl, rfl⟩)
  | insert sel cap =>
      cases out with
      | inserted sts =>
          obtain ⟨memory, answer⟩ := correct
          by_cases here : Caps.key sel = k
          · subst here
            unfold Caps.insert at answer
            split at answer
            · obtain ⟨rfl, -⟩ := Prod.mk.inj answer
              exact Or.inr (Or.inr ⟨by simp [inserts], rfl, rfl⟩)
            · split at answer
              · rename_i vacant
                obtain ⟨rfl, -⟩ := Prod.mk.inj answer
                refine Or.inl ⟨by simp [inserts], vacant, by simp [wins], ?_⟩
                have stored : m.store sel cap (Caps.key sel) = cap := Function.update_self ..
                show m.store sel cap (Caps.key sel) ≠ .null
                rw [stored]
                exact valid
              · rename_i taken
                obtain ⟨rfl, -⟩ := Prod.mk.inj answer
                exact Or.inr (Or.inl ⟨by simp [inserts], taken, rfl, rfl⟩)
          · refine Or.inr (Or.inr ⟨by simp [inserts, here], ?_, ?_⟩)
            · cases sts <;> simp [wins, here]
            · cases sts <;> simp [effect, Caps.store, Function.update_of_ne (Ne.symm here)]
      | _ => exact absurd correct id
  | update sel cap old =>
      cases out with
      | updated sts old' =>
          refine Or.inr (Or.inr ⟨rfl, rfl, ?_⟩)
          cases sts with
          | success =>
              have other : k ≠ Caps.key sel := by
                rintro rfl
                simp [updates] at keeps
              simp [effect, Caps.store, Function.update_of_ne other]
          | _ => rfl
      | _ => exact absurd correct id

end Event

/-- **An insert race has one winner**: from an empty place on, the number of calls that
win it is 1 as soon as any call tries, and the place stays taken. -/
theorem one_winner {n : Nat} {k : Fin objNum} {earlier : List (Event n)} (vacant : mapOf earlier k = .null) :
    ∀ segment : List (Event n), Linear (segment ++ earlier) → (∀ e ∈ segment, e.request.Valid) →
      (∀ e ∈ segment, e.updates k = false) →
      segment.countP (Event.wins k) = (if segment.any (Event.inserts k) then 1 else 0) ∧
        (mapOf (segment ++ earlier) k = .null ↔ segment.any (Event.inserts k) = false) := by
  intro segment
  induction segment with
  | nil => intro _ _ _; simpa using vacant
  | cons e rest ih =>
      intro linear valid keeps
      obtain ⟨before, correct⟩ : Linear (rest ++ earlier) ∧ e.Correct (mapOf (rest ++ earlier)) := linear
      obtain ⟨count, place⟩ := ih before (fun e' member => valid e' (List.mem_cons_of_mem _ member))
        fun e' member => keeps e' (List.mem_cons_of_mem _ member)
      rw [List.countP_cons, List.any_cons, count]
      show _ ∧ ((e.effect (mapOf (rest ++ earlier))) k = .null ↔ _)
      rcases Event.race (valid e List.mem_cons_self) correct (keeps e List.mem_cons_self) with
        ⟨tries, free, wins, taken⟩ | ⟨tries, taken, loses, same⟩ | ⟨idle, loses, same⟩
      · rw [place.mp free, wins, tries]
        simpa using taken
      · have some : rest.any (Event.inserts k) = true := by
          cases h : rest.any (Event.inserts k) with
          | false => exact absurd (place.mpr h) taken
          | true => rfl
        rw [loses, tries, some, same]
        simpa using taken
      · rw [loses, idle, same, Bool.false_or]
        simpa using place

namespace ObjSpace

variable {n : Nat}

/-- **`Space_obj` is a map from selectors to capabilities**, for any number of threads,
any schedule and any answers of the allocator, in every state that is reached.

The tree holds what the calls have stored, and every call returned what the map
operation returns after the calls before it.  Of the inserts at an empty place one
wins.  An update with a null capability obtains no table.  A table that was obtained
is linked in the tree, held by one thread, or freed, and each only once.  Every call
returns within nine accesses of its own. -/
theorem refines_caps (root : Slot Word entries) (mem : Memory Word Word entries) (others : List Word)
    (moves : List (Move n)) (valid : ∀ move ∈ moves, move.Valid) :
    let s := (create root mem others : ObjSpace n).run moves
    capsIn s.root s.mem = mapOf s.history ∧ Linear s.history ∧
      (∀ segment earlier k, s.history = segment ++ earlier → mapOf earlier k = .null →
        (∀ e ∈ segment, e.updates k = false) → segment.any (Event.inserts k) = true →
        segment.countP (Event.wins k) = 1) ∧
      Along step Frugal (create root mem others) moves ∧
      ((capTree s.root s.mem).pages ++ s.held).Nodup ∧
      s.obtained.Perm ((capTree s.root s.mem).pages ++ s.held ++ s.freed) ∧
      (∀ i req pc more, s.thread i = some (req, pc) → (∀ move ∈ more, move.Valid) →
        9 ≤ more.countP (Move.actsFor i) →
        ∃ before after, more = before ++ after ∧ (s.run before).Returned i req) := by
  intro s
  have coherent : s.Coherent := (coherent_create root mem others).run valid
  refine ⟨coherent.caps, coherent.linear, ?_, ?_, coherent.custody.nodup, coherent.custody.books, ?_⟩
  · intro segment earlier k split vacant keeps tries
    have valid' : ∀ e ∈ segment, e.request.Valid := fun e member =>
      coherent.valid e (by rw [split]; exact List.mem_append_left _ member)
    have winner := one_winner vacant segment (by rw [← split]; exact coherent.linear) valid' keeps
    rw [winner.1, if_pos tries]
  · refine Along.transfer (I := Coherent) (G := fun _ move => move.Valid) ?_ moves _ (coherent_create root mem others)
      (Along.of_forall valid)
    intro s' move inv ok
    exact ⟨inv.step ok, inv.frugal move⟩
  · intro i req pc more busy valid' enough
    refine returns coherent valid' busy (le_trans ?_ enough)
    have stands := (coherent.stands i req pc busy).2
    have low : ∀ {sel l ptr}, At s.root s.mem sel l ptr → l ≤ 2 := fun at_ => at_.le
    cases pc with
    | find l ptr => have := low stands.2; simp only [Pc.rank]; omega
    | read l ptr => have := low stands.2.2; simp only [Pc.rank]; omega
    | alloc l ptr => have := low stands.2.2; simp only [Pc.rank]; omega
    | install l ptr tbl => have := low stands.2.2.1; simp only [Pc.rank]; omega
    | delete l tbl cte =>
        obtain ⟨-, -, ptr, at_, -⟩ := stands
        have := low at_
        simp only [Pc.rank]
        omega
    | slot ptr => simp only [Pc.rank]; omega

local instance : NeZero 2 := ⟨by decide⟩

/-- Two threads insert at the same selector of an empty space and race for each table. -/
def raceMoves : List (Move 2) :=
  [.call 0 (.insert 5#64 ⟨0x1001#64⟩), .call 1 (.insert 5#64 ⟨0x2001#64⟩),
   -- both find the root empty and obtain a table; thread 1 installs its own first
   .act 0 none, .act 1 none, .act 0 (some 0x3000#64), .act 1 (some 0x4000#64), .act 1 none, .act 0 none,
   .act 0 none,
   -- the same one level below, where thread 0 is first
   .act 0 none, .act 1 none, .act 0 (some 0x3000#64), .act 1 (some 0x5000#64), .act 0 none, .act 1 none,
   .act 1 none, .act 1 none, .act 0 none]

theorem refines_caps_race :
    (∀ move ∈ raceMoves, move.Valid) ∧
      ((create (0x100#64, 0) (fun _ _ => 0#64) [] : ObjSpace 2).run raceMoves).history.countP
        (Event.wins (Caps.key 5#64)) = 1 := by
  have valid : ∀ move ∈ raceMoves, move.Valid := by
    intro move member
    simp only [raceMoves, List.mem_cons, List.not_mem_nil, or_false] at member
    rcases member with rfl | rfl | rfl | rfl | rfl | rfl | rfl | rfl | rfl | rfl | rfl | rfl | rfl | rfl | rfl |
      rfl | rfl | rfl <;> first | trivial | (intro same; cases same)
  refine ⟨valid, ?_⟩
  refine (refines_caps (0x100#64, 0) (fun _ _ => 0#64) [] raceMoves valid).2.2.1 _ [] _
    (List.append_nil _).symm rfl ?_ ?_ <;> decide

end ObjSpace

end Nova.Kernel
