/-
# Nova.Kernel.ObjDelegate — a range of capabilities is delegated

`Space_obj::delegate` of `src/space_obj.cpp`, over the Captables of all object
spaces in one memory.  `lookup`, `walk` and `update` are those of
`Nova.Kernel.SpaceObj`, written as the loops they are: while a range is delegated,
nobody else walks the tables.  The source and the destination may be one space.

* `WF` is the invariant: the tables of every space form a tree, and no table belongs
  to two spaces.
* `walk_spec` and `update_spec` say what one selector costs: at most new empty
  tables, in the destination.
* `Copied` is the invariant of the loop, and `Copied.step` one round of it.  The
  bases are multiples of the size of the range, so that a round reads the selector
  that it writes or one that no earlier round has written.
-/
import Nova.Kernel.SpaceObj

namespace Nova.Kernel

open Nova.Theory.Words
open Nova.Theory.Radix

set_option autoImplicit false

/-- The object spaces of the system, which have their Captables in one memory -/
structure ObjSpaces (I : Type) where
  root : I → Slot Word entries
  mem : Memory Word Word entries
  /-- Pages that are in use -/
  live : List Word
  /-- What `Buddy::alloc (0)` answers, call by call -/
  supply : List Word

/-- `BITN (ord)` -/
def bitn (ord : Nat) : Word := 1#64 <<< ord

namespace ObjSpaces

variable {I : Type}

def load (s : ObjSpaces I) (ptr : Slot Word entries) : Word := s.mem ptr.1 ptr.2

def store (s : ObjSpaces I) (ptr : Slot Word entries) (w : Word) : ObjSpaces I :=
  { s with mem := write s.mem ptr w }

/-- What `Buddy::alloc (0)` may return -/
def Usable (s : ObjSpaces I) (page : Word) : Prop := page ≠ 0#64 ∧ page ∉ s.live

instance (s : ObjSpaces I) (page : Word) : Decidable (s.Usable page) :=
  inferInstanceAs (Decidable (_ ∧ _))

/-- The page is handed out and filled with null. -/
def construct (s : ObjSpaces I) (page : Word) : ObjSpaces I :=
  { s with mem := Function.update s.mem page fun _ => 0#64, live := page :: s.live }

/-- `new Captable`; an answer that the allocator could not give is `nullptr`. -/
def alloc (s : ObjSpaces I) : Option Word × ObjSpaces I :=
  match s.supply with
  | [] => (none, s)
  | page :: supply =>
      if s.Usable page then (some page, { s with supply }.construct page) else (none, { s with supply })

/-- The loop of `lookup`, at the slot `ptr` of level `l` -/
def lookupFrom (s : ObjSpaces I) (sel : Word) : Nat → Slot Word entries → Capability
  | 0, ptr => ⟨s.load ptr⟩
  | l + 1, ptr =>
      let cte := s.load ptr
      if cte = 0#64 then ⟨cte⟩ else s.lookupFrom sel l (cte, capIndex sel l)

/-- `Space_obj::lookup` -/
def lookup (s : ObjSpaces I) (i : I) (sel : Word) : Capability := s.lookupFrom sel objLev (s.root i)

/-- The loop of `walk`, at the slot `ptr` of level `l` -/
def walkFrom (sel : Word) (e : Bool) : Nat → Slot Word entries → ObjSpaces I →
    Ptr (Slot Word entries) × ObjSpaces I
  | 0, ptr, s => (.ptr ptr, s)
  | l + 1, ptr, s =>
      let cte := s.load ptr
      if cte ≠ 0#64 then walkFrom sel e l (cte, capIndex sel l) s
      else if !e then (.hole, s)
      else
        match s.alloc with
        | (none, s') => (.null, s')
        | (some tbl, s') => walkFrom sel e l (tbl, capIndex sel l) (s'.store ptr tbl)

/-- `Space_obj::walk` -/
def walk (s : ObjSpaces I) (i : I) (sel : Word) (e : Bool) : Ptr (Slot Word entries) × ObjSpaces I :=
  walkFrom sel e objLev (s.root i) s

/-- `Space_obj::update`, with the old capability -/
def update (s : ObjSpaces I) (i : I) (sel : Word) (cap old : Capability) : Status × Capability × ObjSpaces I :=
  match s.walk i sel (cap.prm ≠ 0#32) with
  | (.null, s') => (.insMem, old, s')
  | (.hole, s') => (.success, old, s')
  | (.ptr ptr, s') => (.success, ⟨s'.load ptr⟩, s'.store ptr cap.val)

/-- The loop of `delegate`, for `k` more selectors -/
def copy (obj this : I) (pmm : Perm) : Nat → Word → Word → ObjSpaces I → Status × ObjSpaces I
  | 0, _, _, s => (.success, s)
  | k + 1, sSel, dSel, s =>
      let cap := s.lookup obj sSel
      let (sts, _, s') := s.update this dSel (.ofObject cap.obj (cap.prm &&& pmm)) .null
      if sts = .success then copy obj this pmm k (sSel + 1#64) (dSel + 1#64) s' else (sts, s')

/-- `Space_obj::delegate` -/
def delegate (s : ObjSpaces I) (obj this : I) (src dst : Word) (ord : Nat) (pmm : Perm) : Status × ObjSpaces I :=
  let sEnd := src + bitn ord
  let dEnd := dst + bitn ord
  if sEnd.toNat > objNum ∨ dEnd.toNat > objNum then (.badPar, s)
  else copy obj this pmm (sEnd.toNat - src.toNat) src dst s

end ObjSpaces

/-- The parameters of `sys_ctrl_pd` that its delegation of capabilities uses -/
structure SysCtrlPd where
  p2 : Word
  p3 : Word

namespace SysCtrlPd

def ssb (r : SysCtrlPd) : Word := r.p2 >>> 12

def dsb (r : SysCtrlPd) : Word := r.p3 >>> 12

def ord (r : SysCtrlPd) : Nat := (r.p2 &&& lowMask 5).toNat

def pmm (r : SysCtrlPd) : Perm := (r.p3 &&& lowMask 5).setWidth 32

/-- The check that `sys_ctrl_pd` makes first -/
def Aligned (r : SysCtrlPd) : Prop := (r.ssb ||| r.dsb) &&& (bitn r.ord - 1#64) = 0#64

instance (r : SysCtrlPd) : Decidable r.Aligned := inferInstanceAs (Decidable (_ = _))

end SysCtrlPd

/-- `sys_ctrl_pd`, once it has found two object spaces with the permissions it wants -/
def ObjSpaces.ctrlPd {I : Type} (s : ObjSpaces I) (obj this : I) (r : SysCtrlPd) : Status × ObjSpaces I :=
  if r.Aligned then s.delegate obj this r.ssb r.dsb r.ord r.pmm else (.badPar, s)

/-- What delegation makes of a capability -/
structure Capability.Masked (c : Capability) (pmm : Perm) (c' : Capability) : Prop where
  prm : c'.prm = c.prm &&& pmm
  obj : c.prm &&& pmm ≠ 0#32 → c'.obj = c.obj
  null : c.prm &&& pmm = 0#32 → c' = .null

theorem Capability.masked_ofObject (c : Capability) (pmm : Perm) :
    c.Masked pmm (.ofObject c.obj (c.prm &&& pmm)) where
  prm := prm_ofObject c.aligned_obj (c.prm_narrow.and pmm)
  obj := obj_ofObject c.aligned_obj
  null := by
    intro nothing
    rw [nothing, ofObject_zero]

/-! ## Trees in one memory -/

/-- The slot of a walk: the root, or one in a table of the tree. -/
theorem At.place {root : Slot Word entries} {mem : Memory Word Word entries} {sel : Word} {l : Nat}
    {ptr : Slot Word entries} (at_ : At root mem sel l ptr) : ptr = root ∨ ptr.1 ∈ (capTree root mem).pages := by
  by_cases top : objLev = l
  · subst top
    rw [At, slotOf_self] at at_
    exact Or.inl (Option.some.inj at_).symm
  · exact Or.inr (slotOf_mem_pages at_ top)

/-- A tree depends on its root and on its tables. -/
theorem capTree_congr {root : Slot Word entries} {mem mem' : Memory Word Word entries}
    (word : mem' root.1 root.2 = mem root.1 root.2) (same : ∀ p ∈ (capTree root mem).pages, mem' p = mem p) :
    capTree root mem' = capTree root mem := by
  unfold capTree
  rw [word]
  exact treeOf_congr _ _ same

theorem capsIn_congr {root : Slot Word entries} {mem mem' : Memory Word Word entries}
    (tree : capTree root mem' = capTree root mem) : capsIn root mem' = capsIn root mem := by
  unfold capsIn
  rw [tree]

namespace ObjSpaces

variable {I : Type}

def tree (s : ObjSpaces I) (i : I) : Tree Word Word entries := capTree (s.root i) s.mem

/-- What the spaces hold -/
def caps (s : ObjSpaces I) (i : I) : Caps := capsIn (s.root i) s.mem

/-- The tables of a space form a tree, and no two spaces share a table or a root. -/
structure WF (s : ObjSpaces I) : Prop where
  nodup : ∀ i, (s.tree i).pages.Nodup
  disjoint : ∀ i j, i ≠ j → ∀ p ∈ (s.tree i).pages, p ∉ (s.tree j).pages
  apart : ∀ i j, (s.root i).1 ∉ (s.tree j).pages
  roots : ∀ i j, i ≠ j → s.root i ≠ s.root j
  rootLive : ∀ i, (s.root i).1 ∈ s.live
  live : ∀ i, ∀ p ∈ (s.tree i).pages, p ∈ s.live

/-- The tree of one space takes new tables in, the others stay as they are. -/
theorem WF.grow {s s' : ObjSpaces I} (wf : s.WF) {i : I} (root : s'.root = s.root)
    (kept : ∀ p ∈ s.live, p ∈ s'.live) {new : List Word} (distinct : new.Nodup)
    (fresh : ∀ p ∈ new, p ∉ s.live ∧ p ∈ s'.live) (mine : (s'.tree i).pages.Perm (new ++ (s.tree i).pages))
    (others : ∀ j, j ≠ i → s'.tree j = s.tree j) : s'.WF := by
  have source : ∀ j, ∀ p ∈ (s'.tree j).pages, (p ∈ new ∧ j = i) ∨ p ∈ (s.tree j).pages := by
    intro j p member
    by_cases here : j = i
    · subst here
      rcases List.mem_append.mp (mine.mem_iff.mp member) with taken | old
      · exact Or.inl ⟨taken, rfl⟩
      · exact Or.inr old
    · rw [others j here] at member
      exact Or.inr member
  have rootNew : ∀ j, (s.root j).1 ∉ new := fun j member => (fresh _ member).1 (wf.rootLive j)
  have treeNew : ∀ j, ∀ p ∈ (s.tree j).pages, p ∉ new := fun j p inside member =>
    (fresh p member).1 (wf.live j p inside)
  refine ⟨fun j => ?_, fun j k ne p inJ inK => ?_, fun j k member => ?_, fun j k ne => ?_, fun j => ?_, fun j p member => ?_⟩
  · by_cases here : j = i
    · subst here
      refine mine.nodup_iff.mpr (List.nodup_append.mpr ⟨distinct, wf.nodup j, ?_⟩)
      rintro p member q inside rfl
      exact treeNew j p inside member
    · rw [others j here]
      exact wf.nodup j
  · rcases source j p inJ with ⟨taken, rfl⟩ | old <;> rcases source k p inK with ⟨taken', rfl⟩ | old'
    · exact ne rfl
    · exact treeNew k p old' taken
    · exact treeNew j p old taken'
    · exact wf.disjoint j k ne p old old'
  · rw [root] at member
    rcases source k _ member with ⟨taken, -⟩ | old
    · exact rootNew j taken
    · exact wf.apart j k old
  · rw [root]
    exact wf.roots j k ne
  · rw [root]
    exact kept _ (wf.rootLive j)
  · rcases source j p member with ⟨taken, -⟩ | old
    · exact (fresh p taken).2
    · exact kept p (wf.live j p old)

/-- A word stored in one space is none of another's. -/
theorem WF.tree_store {s : ObjSpaces I} (wf : s.WF) {i j : I} (ne : j ≠ i) {sel : Word} {l : Nat}
    {ptr : Slot Word entries} (at_ : At (s.root i) s.mem sel l ptr) (w : Word) : (s.store ptr w).tree j = s.tree j := by
  have foreign : s.root j ≠ ptr ∧ ptr.1 ∉ (s.tree j).pages := by
    rcases at_.place with rfl | member
    · exact ⟨wf.roots j i ne, wf.apart i j⟩
    · exact ⟨fun e => wf.apart j i (e ▸ member), wf.disjoint i j (Ne.symm ne) _ member⟩
  refine capTree_congr (write_ne s.mem ptr w foreign.1) fun p member => write_page_ne s.mem ptr w ?_
  rintro rfl
  exact foreign.2 member

/-! ## One selector -/

theorem lookupFrom_eq {s : ObjSpaces I} {i : I} {sel : Word} : ∀ {l : Nat} {ptr : Slot Word entries},
    At (s.root i) s.mem sel l ptr → s.lookupFrom sel l ptr = (s.caps i).lookup sel
  | 0, ptr, at_ => (find_at at_ (Or.inr rfl)).symm
  | l + 1, ptr, at_ => by
      rw [lookupFrom]
      split
      · rename_i empty
        exact (find_at at_ (Or.inl empty)).symm
      · rename_i full
        exact lookupFrom_eq (at_.down (Nat.succ_ne_zero l) rfl full)

/-- A lookup finds what the space holds. -/
theorem lookup_eq (s : ObjSpaces I) (i : I) (sel : Word) : s.lookup i sel = (s.caps i).lookup sel :=
  lookupFrom_eq (at_root sel)

/-- What a walk leaves behind: a slot, a hole in which nothing is to be stored, or no memory -/
structure Walked (s : ObjSpaces I) (i : I) (sel : Word) (e : Bool) (r : Ptr (Slot Word entries) × ObjSpaces I) :
    Prop where
  wf : r.2.WF
  caps : r.2.caps = s.caps
  slot : ∀ ptr, r.1 = .ptr ptr → At (r.2.root i) r.2.mem sel 0 ptr
  hole : r.1 = .hole → e = false ∧ (s.caps i).lookup sel = .null
  null : r.1 = .null → e = true

/-- A new table in an empty slot -/
theorem WF.link {s : ObjSpaces I} (wf : s.WF) {i : I} {sel page : Word} {l : Nat} {ptr : Slot Word entries}
    (at_ : At (s.root i) s.mem sel (l + 1) ptr) (empty : s.load ptr = 0#64) (usable : s.Usable page) :
    ((s.construct page).store ptr page).WF ∧ ((s.construct page).store ptr page).caps = s.caps ∧
      At (s.root i) ((s.construct page).store ptr page).mem sel l (page, capIndex sel l) := by
  -- the page is filled while nothing refers to it
  have outside : ∀ j, capTree (s.root j) (s.construct page).mem = s.tree j ∧
      Persists (s.root j) s.mem (s.construct page).mem := fun j =>
    capTree_outside (fun member => usable.2 (wf.live j _ member)) (fun e => usable.2 (e ▸ wf.rootLive j)) _
  have stays := ((outside i).2 sel (l + 1) ptr at_).1
  have other : page ≠ ptr.1 := by
    rintro rfl
    rcases at_.place with top | member
    · exact usable.2 (top ▸ wf.rootLive i)
    · exact usable.2 (wf.live i _ member)
  have built : (s.construct page).WF := by
    refine wf.grow (i := i) rfl (fun p member => List.mem_cons_of_mem _ member) List.nodup_nil
      (fun p none => (nomatch none)) ?_ fun j _ => (outside j).1
    show (capTree (s.root i) (s.construct page).mem).pages.Perm _
    rw [(outside i).1]
    exact List.Perm.refl _
  have vacant : (s.construct page).load ptr = 0#64 := by
    rw [← empty]
    show Function.update s.mem page (fun _ => 0#64) ptr.1 ptr.2 = _
    rw [Function.update_of_ne (Ne.symm other)]
    rfl
  have mine := capsIn_install (built.nodup i) (built.apart i i) stays (Nat.succ_ne_zero l) vacant usable.1
    (Function.update_self ..) other
  have others : ∀ j, j ≠ i → ((s.construct page).store ptr page).tree j = s.tree j := fun j ne =>
    (built.tree_store ne stays page).trans (outside j).1
  refine ⟨wf.grow (i := i) rfl (fun p member => List.mem_cons_of_mem _ member)
    (List.nodup_singleton page) ?_ ?_ others, ?_, ?_⟩
  · intro p member
    obtain rfl := List.mem_singleton.mp member
    exact ⟨usable.2, List.mem_cons_self⟩
  · refine mine.2.trans ?_
    rw [show capTree ((s.construct page).root i) _ = s.tree i from (outside i).1]
    exact List.Perm.refl _
  · funext j
    by_cases here : j = i
    · subst here
      exact mine.1.trans (capsIn_congr (outside j).1)
    · exact capsIn_congr (others j here)
  · exact (persists_write (built.nodup i) (built.apart i i) stays (Or.inl vacant) page _ _ _ stays).1.down
      (Nat.succ_ne_zero l) (write_self _ _ _) usable.1

theorem alloc_cases (s : ObjSpaces I) : ∃ supply, s.alloc = (none, { s with supply }) ∨
    ∃ page, s.Usable page ∧ s.alloc = (some page, { s with supply }.construct page) := by
  unfold alloc
  split
  · rename_i none
    exact ⟨[], Or.inl (by rw [← none])⟩
  · rename_i page supply _
    refine ⟨supply, ?_⟩
    split
    · rename_i usable
      exact Or.inr ⟨page, usable, rfl⟩
    · exact Or.inl rfl

theorem walkFrom_spec {i : I} {sel : Word} {e : Bool} : ∀ (l : Nat) (ptr : Slot Word entries) (s : ObjSpaces I),
    s.WF → At (s.root i) s.mem sel l ptr → Walked s i sel e (walkFrom sel e l ptr s)
  | 0, ptr, s, wf, at_ =>
      { wf
        caps := rfl
        slot := fun q same => by
          obtain rfl := Ptr.ptr.inj same
          exact at_
        hole := fun absurd => (nomatch absurd)
        null := fun absurd => (nomatch absurd) }
  | l + 1, ptr, s, wf, at_ => by
      unfold walkFrom
      simp only
      split
      · rename_i full
        exact walkFrom_spec l _ s wf (at_.down (Nat.succ_ne_zero l) rfl full)
      · rename_i empty
        rw [not_not] at empty
        split
        · rename_i keeps
          refine ⟨wf, rfl, fun q absurd => (nomatch absurd), fun _ => ⟨by simpa using keeps, ?_⟩,
            fun absurd => (nomatch absurd)⟩
          refine (find_at at_ (Or.inl empty)).trans ?_
          rw [show s.mem ptr.1 ptr.2 = 0#64 from empty]
          rfl
        · rename_i makes
          have makes' : e = true := by simpa using makes
          -- the answers that are left play no part in the invariant
          have rest : ∀ supply, ({ s with supply } : ObjSpaces I).WF := fun _ =>
            ⟨wf.nodup, wf.disjoint, wf.apart, wf.roots, wf.rootLive, wf.live⟩
          obtain ⟨supply, failed | ⟨page, usable, obtained⟩⟩ := s.alloc_cases
          · rw [failed]
            exact ⟨rest supply, rfl, fun q absurd => (nomatch absurd), fun absurd => (nomatch absurd), fun _ => makes'⟩
          · rw [obtained]
            obtain ⟨linked, caps, below⟩ := (rest supply).link at_ empty usable
            have walked := walkFrom_spec l _ _ linked below (e := e)
            refine ⟨walked.wf, walked.caps.trans caps, walked.slot, fun hole => ?_, walked.null⟩
            have found := walked.hole hole
            rw [caps] at found
            exact found

theorem walk_spec {s : ObjSpaces I} (wf : s.WF) (i : I) (sel : Word) (e : Bool) : Walked s i sel e (s.walk i sel e) :=
  walkFrom_spec objLev _ s wf (at_root sel)

variable [DecidableEq I]

/-- An update does to one space what an update of a map does, and nothing to the others. -/
theorem update_spec {s : ObjSpaces I} (wf : s.WF) (i : I) (sel : Word) {cap : Capability} (proper : cap.Proper) :
    (s.update i sel cap .null).2.2.WF ∧ ∃ memory,
      ((s.update i sel cap .null).1, (s.update i sel cap .null).2.1, (s.update i sel cap .null).2.2.caps) =
        (((s.caps i).update sel cap memory).1, ((s.caps i).update sel cap memory).2.1,
          Function.update s.caps i ((s.caps i).update sel cap memory).2.2) := by
  have walked := walk_spec wf i sel (cap.prm ≠ 0#32)
  unfold update
  split
  · rename_i s' failed
    rw [failed] at walked
    refine ⟨walked.wf, false, ?_⟩
    rw [show s'.caps = s.caps from walked.caps]
    simp [Caps.update]
  · rename_i s' skipped
    rw [skipped] at walked
    obtain ⟨keeps, vacant⟩ := walked.hole rfl
    have null : cap = .null := proper (by simpa using keeps)
    refine ⟨walked.wf, true, ?_⟩
    have unchanged : (s.caps i).store sel cap = s.caps i := by
      rw [null, ← vacant]
      exact Function.update_eq_self _ _
    rw [show s'.caps = s.caps from walked.caps]
    simp [Caps.update, unchanged, vacant]
  · rename_i ptr s' reached
    rw [reached] at walked
    have wf' : s'.WF := walked.wf
    have caps : s'.caps = s.caps := walked.caps
    have at_ := walked.slot ptr rfl
    have written := capsIn_write (wf'.nodup i) (wf'.apart i i) at_ cap
    have others : ∀ j, j ≠ i → (s'.store ptr cap.val).tree j = s'.tree j := fun j ne => wf'.tree_store ne at_ cap.val
    have old : (⟨s'.load ptr⟩ : Capability) = (s.caps i).lookup sel := by
      rw [← caps]
      exact (find_at at_ (Or.inr rfl)).symm
    have new : (s'.store ptr cap.val).caps = Function.update s.caps i ((s.caps i).store sel cap) := by
      rw [← caps]
      funext j
      by_cases here : j = i
      · subst here
        rw [Function.update_self]
        exact written.1
      · rw [Function.update_of_ne here]
        exact capsIn_congr (others j here)
    refine ⟨wf'.grow (i := i) rfl (fun p member => member) List.nodup_nil (by rintro p ⟨⟩)
      written.2 others, true, ?_⟩
    rw [old, new]
    rfl

/-! ## The loop -/

/-- The first `k` selectors of the destination hold what the source held before, masked, and nothing else has
changed. -/
structure Copied (obj this : I) (pmm : Perm) (src dst : Word) (k : Nat) (before after : I → Caps) : Prop where
  range : ∀ i, i < k → ((before obj).lookup (src + BitVec.ofNat 64 i)).Masked pmm
    ((after this).lookup (dst + BitVec.ofNat 64 i))
  rest : ∀ x, (∀ i, i < k → x ≠ Caps.key (dst + BitVec.ofNat 64 i)) → after this x = before this x
  others : ∀ j, j ≠ this → after j = before j

/-- Bases that `delegate` accepts: both ranges lie in the space, and their selectors agree only at the same offset. -/
structure Apt (src dst : Word) (n : Nat) : Prop where
  source : src.toNat + n ≤ objNum
  dest : dst.toNat + n ≤ objNum
  offset : ∀ i j, i < n → j < n → src.toNat + i = dst.toNat + j → i = j

omit [DecidableEq I] in
theorem val_key_add {base : Word} {i : Nat} (fits : base.toNat + i < objNum) :
    (Caps.key (base + BitVec.ofNat 64 i)).val = base.toNat + i := by
  have small : base.toNat + i < 2 ^ 64 := lt_trans fits (by decide)
  show (base + BitVec.ofNat 64 i).toNat % objNum = _
  rw [BitVec.toNat_add, BitVec.toNat_ofNat, Nat.add_mod_mod, Nat.mod_eq_of_lt small, Nat.mod_eq_of_lt fits]

omit [DecidableEq I] in
theorem Copied.zero (obj this : I) (pmm : Perm) (src dst : Word) (caps : I → Caps) :
    Copied obj this pmm src dst 0 caps caps :=
  ⟨fun i none => absurd none (Nat.not_lt_zero i), fun _ _ => rfl, fun _ _ => rfl⟩

omit [DecidableEq I] in
/-- The selector that a round reads holds what it held before the call. -/
theorem Copied.source {obj this : I} {pmm : Perm} {src dst : Word} {k n : Nat} {before after : I → Caps}
    (copied : Copied obj this pmm src dst k before after) (apt : Apt src dst n) (more : k < n) :
    (after obj).lookup (src + BitVec.ofNat 64 k) = (before obj).lookup (src + BitVec.ofNat 64 k) := by
  have inS := apt.source
  have inD := apt.dest
  by_cases same : obj = this
  · subst same
    refine copied.rest _ fun i earlier e => ?_
    have places := congrArg Fin.val e
    rw [val_key_add (by omega), val_key_add (by omega)] at places
    have := apt.offset k i more (by omega) places
    omega
  · exact congrFun (copied.others obj same) _

/-- **One round of the loop.** -/
theorem Copied.step {obj this : I} {pmm : Perm} {src dst : Word} {k n : Nat} {before after : I → Caps}
    (copied : Copied obj this pmm src dst k before after) (apt : Apt src dst n) (more : k < n) {cap : Capability}
    (masked : ((after obj).lookup (src + BitVec.ofNat 64 k)).Masked pmm cap) :
    Copied obj this pmm src dst (k + 1) before
      (Function.update after this ((after this).store (dst + BitVec.ofNat 64 k) cap)) := by
  have inD := apt.dest
  refine ⟨fun i now => ?_, fun x away => ?_, fun j ne => ?_⟩
  · rw [Function.update_self]
    unfold Caps.lookup Caps.store
    by_cases last : i = k
    · subst last
      rw [copied.source apt more] at masked
      rw [Function.update_self]
      exact masked
    · have apart : Caps.key (dst + BitVec.ofNat 64 i) ≠ Caps.key (dst + BitVec.ofNat 64 k) := by
        intro e
        have places := congrArg Fin.val e
        rw [val_key_add (by omega), val_key_add (by omega)] at places
        omega
      rw [Function.update_of_ne apart]
      exact copied.range i (by omega)
  · rw [Function.update_self, Caps.store, Function.update_of_ne (away k (Nat.lt_succ_self k))]
    exact copied.rest x fun i earlier => away i (Nat.lt_succ_of_lt earlier)
  · rw [Function.update_of_ne ne]
    exact copied.others j ne

theorem copy_spec {obj this : I} {pmm : Perm} {src dst : Word} {n : Nat} {before : I → Caps} (apt : Apt src dst n) :
    ∀ (k a : Nat) (s : ObjSpaces I), a + k = n → s.WF → Copied obj this pmm src dst a before s.caps →
      let r := s.copy obj this pmm k (src + BitVec.ofNat 64 a) (dst + BitVec.ofNat 64 a)
      r.2.WF ∧ (r.1 = .success ∧ Copied obj this pmm src dst n before r.2.caps ∨
        r.1 = .insMem ∧ ∃ b, b < n ∧ Copied obj this pmm src dst b before r.2.caps)
  | 0, a, s, total, wf, copied => by
      obtain rfl : a = n := total
      exact ⟨wf, Or.inl ⟨rfl, copied⟩⟩
  | k + 1, a, s, total, wf, copied => by
      have found := s.lookup_eq obj (src + BitVec.ofNat 64 a)
      have masked := ((s.caps obj).lookup (src + BitVec.ofNat 64 a)).masked_ofObject pmm
      have proper := Capability.proper_ofObject ((s.caps obj).lookup (src + BitVec.ofNat 64 a)).aligned_obj
        ((Capability.prm_narrow ((s.caps obj).lookup (src + BitVec.ofNat 64 a))).and pmm)
      obtain ⟨wf', memory, result⟩ := update_spec wf this (dst + BitVec.ofNat 64 a) proper
      rw [← found] at wf' result masked
      obtain ⟨status, result⟩ := Prod.mk.inj result
      obtain ⟨-, caps⟩ := Prod.mk.inj result
      have next : ∀ base : Word, base + BitVec.ofNat 64 a + 1#64 = base + BitVec.ofNat 64 (a + 1) := by
        intro base
        rw [BitVec.add_assoc]
        congr 1
        apply BitVec.eq_of_toNat_eq
        simp
      unfold copy
      simp only [next]
      cases memory with
      | false =>
          rw [if_neg (by rw [status]; simp [Caps.update])]
          refine ⟨wf', Or.inr ⟨status, a, by omega, ?_⟩⟩
          rw [caps]
          simpa [Caps.update] using copied
      | true =>
          rw [if_pos (by rw [status]; simp [Caps.update])]
          refine copy_spec apt k (a + 1) _ (by omega) wf' ?_
          rw [caps]
          rw [found] at masked
          rw [found]
          exact copied.step apt (by omega) masked

/-! ## The call -/

omit [DecidableEq I] in
theorem toNat_bitn {ord : Nat} (small : ord < 64) : (bitn ord).toNat = 2 ^ ord := by
  unfold bitn
  rw [BitVec.toNat_shiftLeft, Nat.shiftLeft_eq, BitVec.toNat_ofNat]
  exact (Nat.mod_eq_of_lt (by simpa using Nat.pow_lt_pow_right (by decide) small)).trans (by simp)

omit [DecidableEq I] in
/-- Both bases are multiples of the size of the range. -/
theorem bases_of_aligned {src dst : Word} {ord : Nat} (small : ord < 64)
    (aligned : (src ||| dst) &&& (bitn ord - 1#64) = 0#64) : src.toNat % 2 ^ ord = 0 ∧ dst.toNat % 2 ^ ord = 0 := by
  have both : src &&& lowMask ord ||| dst &&& lowMask ord = 0#64 := by
    rw [← aligned]
    ext i
    simp only [BitVec.getElem_or, BitVec.getElem_and, lowMask, bitn, Bool.and_or_distrib_right]
  obtain ⟨lowS, lowD⟩ := BitVec.or_eq_zero_iff.mp both
  rw [← toNat_and_lowMask src small, lowS, ← toNat_and_lowMask dst small, lowD]
  exact ⟨rfl, rfl⟩

omit [DecidableEq I] in
theorem apt_of_aligned {src dst : Word} {ord : Nat} (small : ord < 64)
    (aligned : (src ||| dst) &&& (bitn ord - 1#64) = 0#64) (source : src.toNat + 2 ^ ord ≤ objNum)
    (dest : dst.toNat + 2 ^ ord ≤ objNum) : Apt src dst (2 ^ ord) := by
  obtain ⟨modS, modD⟩ := bases_of_aligned small aligned
  refine ⟨source, dest, fun i j hi hj same => ?_⟩
  have rest : (src.toNat + i) % 2 ^ ord = (dst.toNat + j) % 2 ^ ord := by rw [same]
  rw [Nat.add_mod, modS, Nat.zero_add, Nat.mod_mod, Nat.add_mod, modD, Nat.zero_add, Nat.mod_mod, Nat.mod_eq_of_lt hi,
    Nat.mod_eq_of_lt hj] at rest
  exact rest

/-- What `delegate` does with aligned bases whose ranges do not wrap around -/
theorem delegate_spec {s : ObjSpaces I} (wf : s.WF) (obj this : I) {src dst : Word} {ord : Nat} (pmm : Perm)
    (small : ord < 64) (aligned : (src ||| dst) &&& (bitn ord - 1#64) = 0#64) (noWrap : src.toNat + 2 ^ ord < 2 ^ 64)
    (noWrap' : dst.toNat + 2 ^ ord < 2 ^ 64) :
    let r := s.delegate obj this src dst ord pmm
    r.2.WF ∧
      ((objNum < src.toNat + 2 ^ ord ∨ objNum < dst.toNat + 2 ^ ord) ∧ r = (.badPar, s) ∨
        ¬ (objNum < src.toNat + 2 ^ ord ∨ objNum < dst.toNat + 2 ^ ord) ∧
          (r.1 = .success ∧ Copied obj this pmm src dst (2 ^ ord) s.caps r.2.caps ∨
            r.1 = .insMem ∧ ∃ k, k < 2 ^ ord ∧ Copied obj this pmm src dst k s.caps r.2.caps)) := by
  have sEnd : (src + bitn ord).toNat = src.toNat + 2 ^ ord := by
    rw [BitVec.toNat_add, toNat_bitn small, Nat.mod_eq_of_lt noWrap]
  have dEnd : (dst + bitn ord).toNat = dst.toNat + 2 ^ ord := by
    rw [BitVec.toNat_add, toNat_bitn small, Nat.mod_eq_of_lt noWrap']
  unfold delegate
  simp only [sEnd, dEnd, Nat.add_sub_cancel_left]
  split
  · rename_i outside
    exact ⟨wf, Or.inl ⟨outside, rfl⟩⟩
  · rename_i inside
    have apt := apt_of_aligned small aligned (by omega) (by omega)
    have copied := copy_spec apt (2 ^ ord) 0 s (Nat.zero_add _) wf (Copied.zero obj this pmm src dst s.caps)
    simp only [BitVec.add_zero] at copied
    exact ⟨copied.1, Or.inr ⟨inside, copied.2⟩⟩

end ObjSpaces

/-! ## From `sys_ctrl_pd` -/

namespace SysCtrlPd

theorem ord_lt (r : SysCtrlPd) : r.ord < 32 := by
  rw [ord, toNat_and_lowMask r.p2 (by decide)]
  exact Nat.mod_lt _ (by decide)

theorem toNat_base (p : Word) : (p >>> 12).toNat < 2 ^ 52 := by
  rw [BitVec.toNat_ushiftRight, Nat.shiftRight_eq_div_pow]
  have := p.isLt
  omega

/-- The sums of `delegate` do not wrap around. -/
theorem noWrap (r : SysCtrlPd) : r.ssb.toNat + 2 ^ r.ord < 2 ^ 64 ∧ r.dsb.toNat + 2 ^ r.ord < 2 ^ 64 := by
  have size : 2 ^ r.ord ≤ 2 ^ 31 := Nat.pow_le_pow_right (by decide) (Nat.le_of_lt_succ r.ord_lt)
  have source := toNat_base r.p2
  have dest := toNat_base r.p3
  unfold ssb dsb
  omega

end SysCtrlPd

namespace ObjSpaces

variable {I : Type} [DecidableEq I]

/-- Whatever its arguments are, the hypercall copies the range, or a proper prefix of it, or it changes nothing. -/
theorem ctrlPd_spec {s : ObjSpaces I} (wf : s.WF) (obj this : I) (r : SysCtrlPd) :
    let result := s.ctrlPd obj this r
    result.2.WF ∧ (result = (.badPar, s) ∨
      result.1 = .success ∧ Copied obj this r.pmm r.ssb r.dsb (2 ^ r.ord) s.caps result.2.caps ∨
      result.1 = .insMem ∧ ∃ k, k < 2 ^ r.ord ∧ Copied obj this r.pmm r.ssb r.dsb k s.caps result.2.caps) := by
  unfold ctrlPd
  split
  · rename_i aligned
    obtain ⟨wf', cases⟩ := delegate_spec wf obj this r.pmm (lt_trans r.ord_lt (by decide)) aligned r.noWrap.1 r.noWrap.2
    rcases cases with ⟨-, same⟩ | ⟨-, copied⟩
    · exact ⟨wf', Or.inl same⟩
    · exact ⟨wf', Or.inr copied⟩
  · exact ⟨wf, Or.inl rfl⟩

/-- **Delegation copies a snapshot.**  For all aligned bases that `sys_ctrl_pd` can extract, in one space or two:
the sums do not wrap around; `BAD_PAR` says that a range does not fit in the space, and then nothing has changed;
after `SUCCESS` every selector of the destination range holds what the source held before the call, masked, and
nothing else has changed; after `INS_MEM` that holds of a proper prefix of the range. -/
theorem delegate_snapshot {s : ObjSpaces I} (wf : s.WF) (obj this : I) (r : SysCtrlPd) (pmm : Perm)
    (aligned : r.Aligned) :
    let result := s.delegate obj this r.ssb r.dsb r.ord pmm
    ((r.ssb + bitn r.ord).toNat = r.ssb.toNat + 2 ^ r.ord ∧ (r.dsb + bitn r.ord).toNat = r.dsb.toNat + 2 ^ r.ord) ∧
      (result.1 = .success ∨ result.1 = .insMem ∨ result.1 = .badPar) ∧
      (result.1 = .success → Copied obj this pmm r.ssb r.dsb (2 ^ r.ord) s.caps result.2.caps) ∧
      (result.1 = .badPar ↔ objNum < r.ssb.toNat + 2 ^ r.ord ∨ objNum < r.dsb.toNat + 2 ^ r.ord) ∧
      (result.1 = .badPar → result.2 = s) ∧
      (result.1 = .insMem → ∃ k, k < 2 ^ r.ord ∧ Copied obj this pmm r.ssb r.dsb k s.caps result.2.caps) ∧
      result.2.WF := by
  have small : r.ord < 64 := lt_trans r.ord_lt (by decide)
  obtain ⟨noWrap, noWrap'⟩ := r.noWrap
  obtain ⟨wf', cases⟩ := delegate_spec wf obj this pmm small aligned noWrap noWrap'
  refine ⟨⟨?_, ?_⟩, ?_⟩
  · rw [BitVec.toNat_add, toNat_bitn small, Nat.mod_eq_of_lt noWrap]
  · rw [BitVec.toNat_add, toNat_bitn small, Nat.mod_eq_of_lt noWrap']
  · rcases cases with ⟨outside, same⟩ | ⟨inside, ⟨done, copied⟩ | ⟨failed, first⟩⟩
    · rw [same]
      exact ⟨Or.inr (Or.inr rfl), nofun, iff_of_true rfl outside, fun _ => rfl, nofun, wf⟩
    · rw [done]
      exact ⟨Or.inl rfl, fun _ => copied, iff_of_false nofun inside, nofun, nofun, wf'⟩
    · rw [failed]
      exact ⟨Or.inr (Or.inl rfl), nofun, iff_of_false nofun inside, nofun, fun _ => first, wf'⟩

/-- Two new object spaces, side by side in a slab -/
def pair : ObjSpaces Bool where
  root i := (4096#64, if i then 1 else 0)
  mem _ _ := 0#64
  live := [4096#64]
  supply := [0x2000#64, 0x3000#64, 0x4000#64, 0x5000#64]

theorem wf_pair : pair.WF := by
  have hole : ∀ i, pair.tree i = .hole := fun i => treeOf_hole _ (capKind_zero _)
  refine ⟨fun i => ?_, fun i j _ p member => ?_, fun i j member => ?_, fun i j ne same => ?_,
    fun _ => List.mem_singleton.mpr rfl, fun i p member => ?_⟩
  · rw [hole]
    exact List.nodup_nil
  · rw [hole] at member
    cases member
  · rw [hole] at member
    cases member
  · revert i j
    decide
  · rw [hole] at member
    cases member

/-- A capability at the last of the selectors of the first space that `lastTwo` names -/
def filled : ObjSpaces Bool := (pair.update false 0x3ffff#64 (.ofObject 0x8000#64 5#32) .null).2.2

theorem wf_filled : filled.WF :=
  (update_spec wf_pair false 0x3ffff#64 fun nothing => absurd nothing (by decide)).1

/-- Two selectors of one space, which go to the selectors 2 and 3 of another one -/
def lastTwo : SysCtrlPd := ⟨0x3fffe001#64, 0x2000#64⟩

theorem filled_answers : (filled.delegate false true lastTwo.ssb lastTwo.dsb lastTwo.ord 3#32).1 = .success ∧
    filled.lookup false 0x3fffe#64 = .null ∧ filled.lookup false 0x3ffff#64 = .ofObject 0x8000#64 5#32 := by
  decide +kernel

/-- The capability is delegated, less a permission, and with it the hole before it. -/
theorem delegate_snapshot_pair :
    (filled.delegate false true lastTwo.ssb lastTwo.dsb lastTwo.ord 3#32).1 = .success ∧
    ((filled.delegate false true lastTwo.ssb lastTwo.dsb lastTwo.ord 3#32).2.caps true).lookup 2#64 = .null ∧
    (((filled.delegate false true lastTwo.ssb lastTwo.dsb lastTwo.ord 3#32).2.caps true).lookup 3#64).obj = 0x8000#64 ∧
    (((filled.delegate false true lastTwo.ssb lastTwo.dsb lastTwo.ord 3#32).2.caps true).lookup 3#64).prm = 1#32 := by
  obtain ⟨done, hole, there⟩ := filled_answers
  obtain ⟨-, -, copied, -⟩ := delegate_snapshot wf_filled false true lastTwo 3#32 (by decide)
  rw [lookup_eq] at hole there
  have lower := (copied done).range 0 (by decide)
  have upper := (copied done).range 1 (by decide)
  rw [show lastTwo.ssb + BitVec.ofNat 64 0 = 0x3fffe#64 by decide, show lastTwo.dsb + BitVec.ofNat 64 0 = 2#64 by decide, hole] at lower
  rw [show lastTwo.ssb + BitVec.ofNat 64 1 = 0x3ffff#64 by decide, show lastTwo.dsb + BitVec.ofNat 64 1 = 3#64 by decide, there] at upper
  exact ⟨done, lower.null (by decide), (upper.obj (by decide)).trans (by decide), upper.prm.trans (by decide)⟩

end ObjSpaces

end Nova.Kernel
