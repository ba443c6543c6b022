/-
# Nova.Kernel.Pagetable — walking, looking up and updating a page table

`Pagetable<T,I,O,L,M,C>` of `src/ptab.cpp` and `inc/ptab.hpp`, over a memory of
512-entry tables.  A table is known by its physical address, a page table by its
entry format and the slot that holds its root entry.

Two things are decided outside this code and are data of the state:

* `supply` is what `Buddy::alloc (0)` answers, call by call.  An answer that is
  not a page the allocator could hand out (and the end of the list) is `nullptr`.
* `race` is what other CPUs walking the same page table do between the read of
  an entry and the `compare_exchange` on it, one list for each such window.  What
  they do after our own allocation commutes with it, so the model lets them act
  before it.

`obtained`, `waited` and `freed` log every page that went through `operator new`
and the two kinds of `operator delete`; no code reads them.  Cache maintenance
(`nc`) has no effect on the contents and is left out.
-/
import Nova.Theory.Radix
import Nova.Kernel.PtabFormat

namespace Nova.Kernel

open Nova.Theory.Words
open Nova.Theory.Radix

set_option autoImplicit false

/-- `Status` -/
inductive Status where
  | success | timeout | aborted | overflow | badHyp | badCap | badPar | badFtr | badCpu | badDev
  | insMem
  deriving DecidableEq, Repr

/-- `Table::entries` -/
abbrev entries : Nat := 512

instance : NeZero entries := ⟨by decide⟩

structure Pagetable where
  format : Format
  root : Slot Word entries

structure State where
  mem : Memory Word Word entries
  /-- Pages that Buddy has handed out and not taken back. -/
  live : List Word
  /-- Pages on the wait list. -/
  pending : List Word
  supply : List Word
  race : List (List (Word × Nat))
  obtained : List Word
  waited : List Word
  freed : List Word

namespace State

def load (s : State) (r : Slot Word entries) : Word := s.mem r.1 r.2

def store (s : State) (r : Slot Word entries) (w : Word) : State := { s with mem := write s.mem r w }

/-- A page that `Buddy::alloc (0)` may return: page-aligned, inside every output
address width, and not in use. -/
def Usable (s : State) (page : Word) : Prop := page ≠ 0#64 ∧ Within pageBits 48 page ∧ page ∉ s.live

instance (s : State) (page : Word) : Decidable (s.Usable page) :=
  inferInstanceAs (Decidable (_ ∧ _ ∧ _))

/-- The state after `page` was handed out. -/
def take (s : State) (page : Word) : State :=
  { s with live := page :: s.live, obtained := page :: s.obtained }

/-- `Table::operator new` -/
def alloc (s : State) : Option Word × State :=
  match s.supply with
  | [] => (none, s)
  | page :: supply =>
      if s.Usable page then (some page, { s with supply }.take page) else (none, { s with supply })

/-- `Table::operator delete (ptr, false)`: `Buddy::free` -/
def free (s : State) (page : Word) : State :=
  { s with live := s.live.erase page, freed := page :: s.freed }

/-- `Table::operator delete (ptr, true)`: `Buddy::wait`, for each of `pages` -/
def wait (s : State) (pages : List Word) : State :=
  { s with pending := pages ++ s.pending, waited := pages ++ s.waited }

/-- `Buddy::free_wait` -/
def freeWait (s : State) : State :=
  { s with live := s.live.filter (· ∉ s.pending), pending := [] }

/-- The constructor `Table (p, s)` -/
def construct (s : State) (page p size : Word) : State :=
  { s with mem := Function.update s.mem page fun i => p + BitVec.ofNat 64 i * size }

end State

/-- `(v >> (l * bpl + PAGE_BITS)) % Table::entries` -/
def slotIndex (v : Word) (l : Nat) : Fin entries :=
  ⟨(v >>> (l * bpl + pageBits)).toNat % entries, Nat.mod_lt _ (by decide)⟩

/-- The three results of a walk: a pointer, `~0UL` and `nullptr`. -/
inductive Ptr (α : Type) where
  | ptr (a : α)
  | hole
  | null
  deriving DecidableEq

/-- What an entry stands for in a slot of level `l`. -/
def Format.kind (F : Format) (l : Nat) (e : Word) : Kind Word :=
  if e = 0#64 then .hole else if F.isTable l e then .table (F.addr 0 e) else .leaf

namespace Pagetable

variable (T : Pagetable)

/-- `p` and `s` of `walk`: the first entry of the new table and its increment. -/
def splinter (l : Nat) (pte : Word) : Word × Word :=
  if pte = 0#64 then (0#64, 0#64)
  else
    (T.format.addr l pte |||
        T.format.pageAttr (l - 1) (T.format.pagePm pte) (T.format.pageCa l pte) (T.format.pageSh pte),
      pageSize ((l - 1) * bpl))

/-- The entry that refers to a new table: `ptr_to_phys (tbl) | (l != L) * ptab_attr()` -/
def tableEntry (l : Nat) (page : Word) : Word :=
  if l ≠ T.format.lev then page ||| T.format.ptabAttr else page

/-- Construct the new table `page` for the slot `r` of level `l`, which holds
`pte`, and install it there. -/
def install (l : Nat) (r : Slot Word entries) (pte page : Word) (s : State) : State :=
  (s.construct page (T.splinter l pte).1 (T.splinter l pte).2).store r (T.tableEntry l page)

/-- One table that another CPU installs: in the slot of level `at.2` along the
address `at.1`, if there is such a slot and it does not refer to a table yet. -/
def interfere (s : State) (at_ : Word × Nat) : State :=
  match slotOf T.format.kind s.mem (slotIndex at_.1) at_.2 T.format.lev T.root with
  | none => s
  | some r =>
      match T.format.kind at_.2 (s.load r), at_.2 with
      | .table _, _ => s
      | _, 0 => s
      | _, _ =>
          match s.alloc with
          | (none, s) => s
          | (some page, s) => T.install at_.2 r (s.load r) page s

/-- The inner loop of `walk` at the slot `r` of level `l`, which was read as `pte`:
the table to proceed with. -/
def next (l : Nat) (r : Slot Word entries) (e : Bool) :
    List (List (Word × Nat)) → Word → State → Ptr Word × State
  | race, pte, s =>
      if pte = 0#64 && !e then (.hole, s)
      else if pte = 0#64 || T.format.isLarge l pte then
        match race with
        | [] =>
            match s.alloc with
            | (none, s) => (.null, s)
            | (some page, s) => (.ptr page, T.install l r pte page s)
        | others :: race =>
            match (others.foldl T.interfere { s with race }).alloc with
            | (none, s) => (.null, s)
            | (some page, s) =>
                if s.load r = pte then (.ptr page, T.install l r pte page s)
                else
                  next l r e race (s.load r)
                    ((s.construct page (T.splinter l pte).1 (T.splinter l pte).2).free page)
      else (.ptr (T.format.addr 0 pte), s)

/-- `walk (v, n, e)` from the slot `r` of level `l` on.  Callers keep `n ≤ L`. -/
def walkFrom (v : Word) (n : Nat) (e : Bool) :
    Nat → Slot Word entries → State → Ptr (Slot Word entries) × State
  | 0, r, s => if 0 = n then (.ptr r, s) else (.null, s)
  | l + 1, r, s =>
      if l + 1 = n then (.ptr r, s)
      else
        match T.next (l + 1) r e s.race (s.load r) s with
        | (.ptr page, s) => walkFrom v n e l (page, slotIndex v l) s
        | (.hole, s) => (.hole, s)
        | (.null, s) => (.null, s)

/-- `Pagetable::walk` -/
def walk (v : Word) (n : Nat) (e : Bool) (s : State) : Ptr (Slot Word entries) × State :=
  T.walkFrom v n e T.format.lev T.root s

/-- `root_init` with its default level -/
def rootInit (s : State) : Ptr (Slot Word entries) × State := T.walk 0#64 (T.format.lev - 1) true s

/-- What `lookup` returns: the permissions, and its four reference arguments. -/
structure Lookup where
  pm : Permissions
  p : Word
  o : Nat
  ca : Cacheability
  sh : Shareability
  deriving DecidableEq

/-- `lookup` from an entry `pte` of level `l` on; `ca` and `sh` are the values the
caller's variables had before. -/
def lookupFrom (mem : Memory Word Word entries) (v : Word) (ca : Cacheability)
    (sh : Shareability) : Nat → Word → Lookup
  | l, pte =>
      if pte = 0#64 then { pm := .none, p := 0#64, o := l * bpl, ca, sh }
      else
        match T.format.isTable l pte, l with
        | true, l + 1 => lookupFrom mem v ca sh l (mem (T.format.addr 0 pte) (slotIndex v l))
        | _, l =>
            { pm := T.format.pagePm pte, p := T.format.addr l pte ||| v &&& offsMask (l * bpl),
              o := l * bpl, ca := T.format.pageCa l pte, sh := T.format.pageSh pte }

/-- `Pagetable::lookup` -/
def lookup (v : Word) (ca : Cacheability) (sh : Shareability) (s : State) : Lookup :=
  T.lookupFrom s.mem v ca sh T.format.lev (s.load T.root)

/-- `Table::deallocate (l)`: the tables it hands to `Buddy::wait`, in order. -/
def deallocate (mem : Memory Word Word entries) : Nat → Word → List Word
  | 0, _ => []
  | l + 1, page =>
      ((List.finRange entries).flatMap fun i =>
        if mem page i = 0#64 then []
        else if T.format.isTable (l + 1) (mem page i) then
          deallocate mem l (T.format.addr 0 (mem page i))
        else []) ++ [page]

/-- One round of the inner loop of `update`: the slot `r` of level `l` takes the
entry `e`, and the tables below the old entry are given up. -/
def exchange (l : Nat) (r : Slot Word entries) (e : Word) (s : State) : State :=
  let old := s.load r
  let s := s.store r e
  if old ≠ 0#64 ∧ T.format.isTable l old then
    s.wait (T.deallocate s.mem (l - 1) (T.format.addr 0 old))
  else s

/-- The inner loop of `update`: `n` slots from `r` on take the entries `e`,
`e + size`, … -/
def replace (l : Nat) (size : Word) : Nat → Slot Word entries → Word → State → State
  | 0, _, _, s => s
  | n + 1, r, e, s => replace l size n (r.1, r.2 + 1) (e + size) (T.exchange l r e s)

/-- The outer loop of `update`: `count` runs of `n` slots of level `l` with
attributes `a`, `stride` apart. -/
def updateLoop (l n : Nat) (a stride : Word) : Nat → Word → Word → State → Status × State
  | 0, _, _, s => (.success, s)
  | count + 1, v, p, s =>
      match T.walk v l (a ≠ 0#64) s with
      | (.null, s) => (.insMem, s)
      | (.hole, s) => updateLoop l n a stride count (v + stride) (p + stride) s
      | (.ptr r, s) =>
          let e := if a ≠ 0#64 then p ||| a else 0#64
          let size := if a ≠ 0#64 then pageSize (l * bpl) else 0#64
          updateLoop l n a stride count (v + stride) (p + stride) (T.replace l size n r e s)

/-- `Pagetable::update`; `lim` is the leaf limit of the page table's class. -/
def update (lim : Nat) (v p : Word) (ord : Nat) (pm : Permissions) (ca : Cacheability)
    (sh : Shareability) (s : State) : Status × State :=
  let o := min ord lim
  let l := o / bpl
  let a := T.format.pageAttr l pm ca sh
  T.updateLoop l (bit32 (o % bpl)) a (BitVec.ofNat 64 (bit32 (o + pageBits))) (bit32 (ord - o)) v p s

end Pagetable

/-- The initial value of `lim` -/
def Format.leafMax (F : Format) : Nat := F.max * bpl

/-- `set_leaf_max` -/
def setLeafMax (lim l : Nat) : Nat := min lim (l * bpl)

end Nova.Kernel
