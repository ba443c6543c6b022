/-
# Nova.Kernel.Ledger — what a call has taken and not given back

A creation takes pages from Buddy and buffers from slab caches, and gives them back
when it fails.  `Ledger B X s s'` is the account of the state `s'` against the state
`s` at the beginning: the call holds the buffers `B`, each with the slab that its
allocation took from Buddy, if any, and the pages `X` beside them.

Every operation of a call has one rule for its entry in the ledger.  The rule for
`delete` rests on the slab caches keeping no slab without need (`Sound.pages_iff`):
the slabs of a cache are determined by its live buffers, so a buffer that comes and
goes takes its slab along.
-/
import Nova.Kernel.Factory

namespace Nova.Kernel

open Nova.Theory.Words
open Nova.Theory.Radix

set_option autoImplicit false

/-! ## Page tables only take pages -/

/-- No other CPU acts, and the pages in use stay in use. -/
structure State.Grows (s s' : State) : Prop where
  alone : s'.race = []
  live : ∃ pages, s'.live = pages ++ s.live

namespace State

variable {s s' s'' : State}

theorem Grows.refl (alone : s.race = []) : s.Grows s := ⟨alone, [], rfl⟩

theorem Grows.trans (first : s.Grows s') (second : s'.Grows s'') : s.Grows s'' := by
  obtain ⟨pages, live⟩ := first.live
  obtain ⟨pages', live'⟩ := second.live
  exact ⟨second.alone, pages' ++ pages, by rw [live', live, List.append_assoc]⟩

/-- Writes to memory take no pages. -/
theorem Grows.write (grows : s.Grows s') (live : s''.live = s'.live) (race : s''.race = s'.race) : s.Grows s'' :=
  ⟨race.trans grows.alone, by rw [live]; exact grows.live⟩

theorem grows_alloc (alone : s.race = []) {answer : Option Word} (done : s.alloc = (answer, s')) : s.Grows s' := by
  obtain ⟨supply, ⟨-, rfl⟩ | ⟨page, -, -, rfl⟩⟩ := Pagetable.alloc_cases done
  · exact ⟨alone, [], rfl⟩
  · exact ⟨alone, [page], rfl⟩

end State

namespace Pagetable

variable {T : Pagetable} {s s' : State}

theorem grows_next {l : Nat} {r : Slot Word entries} {e : Bool} {pte : Word} {p : Ptr Word} (alone : s.race = [])
    (done : T.next l r e s.race pte s = (p, s')) : s.Grows s' := by
  rw [alone, next] at done
  split at done
  · obtain ⟨-, rfl⟩ := Prod.mk.inj done
    exact .refl alone
  · split at done
    · cases alloc : s.alloc with
      | mk answer s₁ =>
          have grows := State.grows_alloc alone alloc
          rw [alloc] at done
          cases answer with
          | none =>
              obtain ⟨-, rfl⟩ := Prod.mk.inj done
              exact grows
          | some page =>
              obtain ⟨-, rfl⟩ := Prod.mk.inj done
              exact grows.write rfl rfl
    · obtain ⟨-, rfl⟩ := Prod.mk.inj done
      exact .refl alone

theorem grows_walkFrom {v : Word} {n : Nat} {e : Bool} : ∀ {l : Nat} {r : Slot Word entries} {s s' : State}
    {p : Ptr (Slot Word entries)}, s.race = [] → T.walkFrom v n e l r s = (p, s') → s.Grows s'
  | 0, r, s, s', p, alone, done => by
      rw [walkFrom] at done
      split at done
      · obtain ⟨-, rfl⟩ := Prod.mk.inj done
        exact .refl alone
      · obtain ⟨-, rfl⟩ := Prod.mk.inj done
        exact .refl alone
  | l + 1, r, s, s', p, alone, done => by
      rw [walkFrom] at done
      split at done
      · obtain ⟨-, rfl⟩ := Prod.mk.inj done
        exact .refl alone
      · cases step : T.next (l + 1) r e s.race (s.load r) s with
        | mk q s₁ =>
            have grows := grows_next alone step
            rw [step] at done
            cases q with
            | ptr page => exact grows.trans (grows_walkFrom grows.alone done)
            | hole =>
                obtain ⟨-, rfl⟩ := Prod.mk.inj done
                exact grows
            | null =>
                obtain ⟨-, rfl⟩ := Prod.mk.inj done
                exact grows

theorem grows_walk {v : Word} {n : Nat} {e : Bool} {p : Ptr (Slot Word entries)} (alone : s.race = [])
    (done : T.walk v n e s = (p, s')) : s.Grows s' := grows_walkFrom alone done

theorem grows_replace {l : Nat} {size : Word} : ∀ {n : Nat} {r : Slot Word entries} {e : Word} {s : State},
    s.race = [] → s.Grows (T.replace l size n r e s)
  | 0, _, _, _, alone => .refl alone
  | n + 1, r, e, s, alone => by
      have grows : s.Grows (T.exchange l r e s) := by
        unfold exchange
        dsimp only
        split
        · exact (State.Grows.refl alone).write rfl rfl
        · exact (State.Grows.refl alone).write rfl rfl
      exact grows.trans (grows_replace grows.alone)

theorem grows_updateLoop {l n : Nat} {a stride : Word} : ∀ {count : Nat} {v p : Word} {s : State},
    s.race = [] → s.Grows (T.updateLoop l n a stride count v p s).2
  | 0, _, _, _, alone => .refl alone
  | count + 1, v, p, s, alone => by
      rw [updateLoop]
      cases step : T.walk v l (a ≠ 0#64) s with
      | mk q s₁ =>
          have grows := grows_walk alone step
          cases q with
          | null => exact grows
          | hole => exact grows.trans (grows_updateLoop grows.alone)
          | ptr r =>
              refine grows.trans (State.Grows.trans (grows_replace grows.alone) (grows_updateLoop ?_))
              exact (grows_replace grows.alone).alone

theorem grows_shareFrom {src : Pagetable} {v o : Word} {b : Bool} (alone : s.race = [])
    (done : T.shareFrom src v o s = some (b, s')) : s.Grows s' := by
  unfold shareFrom at done
  dsimp only at done
  cases first : T.walk v (((v ^^^ o).toNat.log2 - pageBits) / bpl) true s with
  | mk d s₁ =>
      have grows := grows_walk alone first
      rw [first] at done
      cases d with
      | null =>
          obtain ⟨-, rfl⟩ := Prod.mk.inj (Option.some.inj done)
          exact grows
      | hole => cases done
      | ptr d =>
          cases second : src.walk v (((v ^^^ o).toNat.log2 - pageBits) / bpl) false s₁ with
          | mk r s₂ =>
              have grows := grows.trans (grows_walk grows.alone second)
              dsimp only at done
              rw [second] at done
              cases r with
              | null =>
                  obtain ⟨-, rfl⟩ := Prod.mk.inj (Option.some.inj done)
                  exact grows
              | hole => cases done
              | ptr r =>
                  dsimp only at done
                  split at done
                  · obtain ⟨-, rfl⟩ := Prod.mk.inj (Option.some.inj done)
                    exact grows
                  · obtain ⟨-, rfl⟩ := Prod.mk.inj (Option.some.inj done)
                    exact grows.write rfl rfl

theorem grows_update {lim : Nat} {v p : Word} {ord : Nat} {pm : Permissions} {ca : Cacheability} {sh : Shareability}
    (alone : s.race = []) : s.Grows (T.update lim v p ord pm ca sh s).2 := grows_updateLoop alone

/-- The root table of a new page table -/
theorem rootInit_empty (positive : 0 < T.format.lev) (empty : s.load T.root = 0#64) (alone : s.race = []) :
    T.rootInit s =
      match s.alloc with
      | (none, s') => (.null, s')
      | (some page, s') => (.ptr (page, slotIndex 0#64 (T.format.lev - 1)), T.install T.format.lev T.root 0#64 page s') := by
  obtain ⟨l, level⟩ := Nat.exists_eq_add_of_lt positive
  rw [Nat.zero_add] at level
  unfold rootInit walk
  rw [level, Nat.add_sub_cancel, walkFrom, if_neg (Nat.succ_ne_self l), empty, alone, next]
  cases s.alloc with
  | mk answer s' =>
      cases answer with
      | none => simp
      | some page => cases l <;> simp [walkFrom]

end Pagetable

/-! ## Slab caches -/

namespace SlabCache

/-- **The slabs of a cache are those of its live buffers.** -/
theorem Sound.pages_iff {c : SlabCache} (sound : c.Sound) (x : Nat) : x ∈ c.pages ↔ ∃ p ∈ c.live, fromBuffer p = x := by
  obtain ⟨⟨P, F, shape⟩, busy⟩ := sound
  constructor
  · intro member
    by_contra none
    have empty : (c.slab x).acnt = c.bps :=
      (shape.toListed.no_live (shape.pages.mem_iff.mp member)).mpr fun p live same => none ⟨p, live, same⟩
    exact absurd (busy x member) (by omega)
  · rintro ⟨p, live, rfl⟩
    exact shape.pages.mem_iff.mpr (shape.live p live)

theorem Sound.nodup_pages {c : SlabCache} (sound : c.Sound) : c.pages.Nodup := by
  obtain ⟨⟨P, F, shape⟩, -⟩ := sound
  exact shape.pages.nodup_iff.mpr shape.nodup

/-- Caches with the same live buffers have the same slabs. -/
theorem Sound.pages_perm {c c' : SlabCache} (sound : c.Sound) (sound' : c'.Sound) (live : c'.live.Perm c.live) :
    c'.pages.Perm c.pages := by
  refine (List.perm_ext_iff_of_nodup sound'.nodup_pages sound.nodup_pages).mpr fun x => ?_
  rw [sound'.pages_iff, sound.pages_iff]
  exact exists_congr fun p => and_congr_left fun _ => live.mem_iff

end SlabCache

/-! ## Blocks -/

namespace State

/-- What Buddy answers to allocations of these orders, one after the other; when one fails, the others are given back. -/
def reserve : List Nat → State → Bool × State
  | [], s => (true, s)
  | o :: rest, s =>
      match s.allocBlock o with
      | (none, s) => (false, s)
      | (some page, s) =>
          match reserve rest s with
          | (true, s) => (true, s)
          | (false, s) => (false, s.freeBlock o page)

variable {s s' : State} {o : Nat}

theorem allocBlock_cases {answer : Option Word} (done : s.allocBlock o = (answer, s')) :
    ∃ supply, (answer = none ∧ s' = { s with supply }) ∨
      ∃ page, answer = some page ∧ s.UsableBlock o page ∧
        s' = { s with supply, live := blockPages o page ++ s.live, obtained := blockPages o page ++ s.obtained } := by
  unfold allocBlock at done
  split at done
  · exact ⟨s.supply, Or.inl ⟨(Prod.mk.inj done).1.symm, (Prod.mk.inj done).2.symm⟩⟩
  · rename_i page supply _
    split at done
    · exact ⟨supply, Or.inr ⟨page, (Prod.mk.inj done).1.symm, by assumption, (Prod.mk.inj done).2.symm⟩⟩
    · exact ⟨supply, Or.inl ⟨(Prod.mk.inj done).1.symm, (Prod.mk.inj done).2.symm⟩⟩

theorem blockPages_zero (page : Word) : blockPages 0 page = [page] := by
  simp [blockPages]

theorem alloc_eq (s : State) : s.alloc = s.allocBlock 0 := by
  have usable : ∀ page, s.UsableBlock 0 page ↔ s.Usable page := by
    intro page
    unfold UsableBlock Usable
    rw [blockPages_zero, List.forall_mem_singleton, Nat.add_zero]
  rw [alloc, allocBlock]
  cases s.supply with
  | nil => rfl
  | cons page supply =>
      by_cases free : s.Usable page
      · simp only [if_pos free, if_pos ((usable page).mpr free), blockPages_zero]
        rfl
      · simp only [if_neg free, if_neg fun block => free ((usable page).mp block)]

/-- Buddy does not look at the page tables. -/
theorem allocBlock_write (o : Nat) (s : State) (m : Memory Word Word entries) :
    ({ s with mem := m } : State).allocBlock o = ((s.allocBlock o).1, { (s.allocBlock o).2 with mem := m }) := by
  obtain ⟨_, live, pending, supply, race, obtained, waited, freed⟩ := s
  cases supply with
  | nil => rfl
  | cons page supply =>
      unfold allocBlock
      dsimp only
      split
      · rename_i usable
        exact (if_pos usable).symm ▸ rfl
      · rename_i usable
        exact (if_neg usable).symm ▸ rfl

/-- One block -/
theorem reserve_one (o : Nat) (s : State) : (s.reserve [o]).1 = (s.allocBlock o).1.isSome ∧ (s.reserve [o]).2 = (s.allocBlock o).2 := by
  rw [reserve]
  cases s.allocBlock o with
  | mk answer s' => cases answer <;> exact ⟨rfl, rfl⟩

theorem blockPages_ne (o : Nat) (page : Word) : blockPages o page ≠ [] := by
  have positive : 0 < 2 ^ o := Nat.two_pow_pos o
  intro empty
  have length := congrArg List.length empty
  rw [blockPages, List.length_map, List.length_range] at length
  exact absurd length (by rw [List.length_nil]; omega)

/-- `Buddy::free`, for each of the pages -/
theorem foldl_free (pages : List Word) (s : State) :
    pages.foldl State.free s = { s with live := s.live.diff pages, freed := pages.reverse ++ s.freed } := by
  induction pages generalizing s with
  | nil => rfl
  | cons page rest ih => simp [ih, State.free, List.diff_cons]

theorem diff_append (pages live : List Word) : (pages ++ live).diff pages = live := by
  induction pages with
  | nil => simp
  | cons page rest ih => rw [List.cons_append, List.diff_cons, List.erase_cons_head, ih]

theorem reserve_append (orders orders' : List Nat) (s : State) :
    (s.reserve (orders ++ orders')).1 = ((s.reserve orders).1 && ((s.reserve orders).2.reserve orders').1) := by
  induction orders generalizing s with
  | nil => rfl
  | cons o rest ih =>
      rw [List.cons_append, reserve, reserve]
      cases s.allocBlock o with
      | mk answer s₁ =>
          cases answer with
          | none => rfl
          | some page =>
              have later := ih s₁
              dsimp only
              cases whole : s₁.reserve (rest ++ orders') with
              | mk b s₂ =>
                  cases first : s₁.reserve rest with
                  | mk b' s₃ =>
                      rw [whole, first] at later
                      cases b <;> cases b' <;> simp_all

end State

namespace Creation

open Syscall (SpaceKind)

namespace Heap

variable (cfg : Config) (s : Heap)

/-- The caches of the classes and of the constructed PDs -/
def Owned : Cache → Prop
  | .space _ pd => pd ∈ s.pds
  | .fpu pd => pd ∈ s.pds
  | _ => True

/-- A constructed space, or the static one of the kind -/
def Space (k : SpaceKind) (o : Nat) : Prop := o = cfg.nova k ∨ ∃ pd ∈ s.pds, o ∈ (s.cache (.space k pd)).live

/-- What holds between calls -/
structure WF : Prop where
  alone : s.mem.race = []
  sound : ∀ c, s.Owned c → (s.cache c).Sound
  /-- A slab is a page of Buddy. -/
  backed : ∀ c, s.Owned c → ∀ x ∈ (s.cache c).pages, ∃ page ∈ s.mem.live, Within pageBits 48 page ∧ page.toNat = x
  apart : ∀ c c', s.Owned c → s.Owned c' → c ≠ c' → ∀ x ∈ (s.cache c).pages, x ∉ (s.cache c').pages
  pds : ∀ pd ∈ s.pds, pd ∈ (s.cache .pd).live
  /-- The static objects lie in pages that Buddy does not hand out and that are no slabs. -/
  fixed : ∀ k, ∃ page ∈ s.mem.live, page.toNat = SlabCache.fromBuffer (cfg.nova k) ∧
    ∀ c, s.Owned c → page.toNat ∉ (s.cache c).pages

/-- The pages that `new` asks Buddy for -/
def needs (c : Cache) : List Nat := if (s.cache c).curr = none then [0] else []

end Heap

/-! ## The ledger -/

/-- A buffer that was allocated, with the slab that Buddy gave for it, if any -/
structure Held where
  cache : Cache
  buffer : Nat
  slab : List Word

def slabs (B : List Held) : List Word := B.flatMap Held.slab

/-- The buffers of the cache `c` -/
def inCache (c : Cache) (B : List Held) : List Held := B.filter fun h => h.cache = c

@[simp] theorem inCache_nil (c : Cache) : inCache c [] = [] := rfl

@[simp] theorem inCache_self (h : Held) (B : List Held) : inCache h.cache (h :: B) = h :: inCache h.cache B := by
  simp [inCache]

theorem inCache_other {c : Cache} {h : Held} (other : h.cache ≠ c) (B : List Held) : inCache c (h :: B) = inCache c B := by
  simp [inCache, other]

theorem inCache_none {c : Cache} {B : List Held} (none : ∀ h ∈ B, h.cache ≠ c) : inCache c B = [] := by
  simpa [inCache, List.filter_eq_nil_iff] using none

theorem slabs_inCache {c : Cache} {B : List Held} {page : Word} (member : page ∈ slabs (inCache c B)) : page ∈ slabs B := by
  obtain ⟨h, inside, slab⟩ := List.mem_flatMap.mp member
  exact List.mem_flatMap.mpr ⟨h, (List.mem_filter.mp inside).1, slab⟩

/-- `s'` holds the buffers `B` and the pages `X` more than `s`. -/
structure Ledger (B : List Held) (X : List Word) (s s' : Heap) : Prop where
  alone : s'.mem.race = []
  sound : ∀ c, s.Owned c → (s'.cache c).Sound
  buffers : ∀ c, s.Owned c → (s'.cache c).live.Perm ((inCache c B).map Held.buffer ++ (s.cache c).live)
  pages : ∀ c, s.Owned c → (s'.cache c).pages.Perm ((slabs (inCache c B)).map BitVec.toNat ++ (s.cache c).pages)
  live : s'.mem.live.Perm (slabs B ++ (X ++ s.mem.live))
  fresh : ∀ page ∈ slabs B, page ∉ s.mem.live ∧ Within pageBits 48 page
  nodup : (slabs B).Nodup

/-- What allocations do not touch -/
structure Frame (s s' : Heap) : Prop where
  tables : s'.mem.mem = s.mem.mem
  spaces : s'.spaces = s.spaces
  ptr : s'.ptr = s.ptr
  caps : s'.caps = s.caps

theorem Frame.refl (s : Heap) : Frame s s := ⟨rfl, rfl, rfl, rfl⟩

theorem Frame.trans {s s' s'' : Heap} (first : Frame s s') (second : Frame s' s'') : Frame s s'' where
  tables := second.tables.trans first.tables
  spaces := second.spaces.trans first.spaces
  ptr := second.ptr.trans first.ptr
  caps := second.caps.trans first.caps

theorem frame_deleteBlock (o : Nat) (page : Word) (s : Heap) : Frame s (s.deleteBlock o page) := by
  have mem : (s.deleteBlock o page).mem = _ := State.foldl_free (blockPages o page) s.mem
  exact ⟨by rw [mem], rfl, rfl, rfl⟩

namespace Ledger

variable {cfg : Config} {B : List Held} {X : List Word} {s s' s'' : Heap}

theorem refl (wf : s.WF cfg) : Ledger [] [] s s where
  alone := wf.alone
  sound := wf.sound
  buffers _ _ := .refl _
  pages _ _ := .refl _
  live := .refl _
  fresh _ member := absurd member List.not_mem_nil
  nodup := List.nodup_nil

/-- Only the slab caches and the pages in use count. -/
theorem congr (ledger : Ledger B X s s') (cache : ∀ c, s.Owned c → s''.cache c = s'.cache c)
    (live : s''.mem.live = s'.mem.live) (race : s''.mem.race = s'.mem.race) : Ledger B X s s'' where
  alone := race.trans ledger.alone
  sound c owned := by rw [cache c owned]; exact ledger.sound c owned
  buffers c owned := by rw [cache c owned]; exact ledger.buffers c owned
  pages c owned := by rw [cache c owned]; exact ledger.pages c owned
  live := by rw [live]; exact ledger.live
  fresh := ledger.fresh
  nodup := ledger.nodup

/-- Pages without an entry of their own -/
theorem took {pages : List Word} (ledger : Ledger B X s s') (cache : s''.cache = s'.cache)
    (live : s''.mem.live = pages ++ s'.mem.live) (alone : s''.mem.race = []) : Ledger B (pages ++ X) s s'' where
  alone := alone
  sound := by rw [cache]; exact ledger.sound
  buffers := by rw [cache]; exact ledger.buffers
  pages := by rw [cache]; exact ledger.pages
  live := by
    rw [live, List.append_assoc]
    exact (ledger.live.append_left pages).trans (List.perm_append_comm_assoc _ _ _)
  fresh := ledger.fresh
  nodup := ledger.nodup

/-- Page-table functions -/
theorem grows (ledger : Ledger B X s s') (cache : s''.cache = s'.cache) (grows : s'.mem.Grows s''.mem) :
    ∃ Y, Ledger B (Y ++ X) s s'' := by
  obtain ⟨Y, live⟩ := grows.live
  exact ⟨Y, ledger.took cache live grows.alone⟩

/-! ### Blocks -/

theorem newBlock (ledger : Ledger B X s s') {o : Nat} {answer : Option Word} (done : s'.newBlock o = (answer, s'')) :
    s''.cache = s'.cache ∧ s''.pds = s'.pds ∧ s'.mem.allocBlock o = (answer, s''.mem) ∧ Frame s' s'' ∧
      (answer = none → Ledger B X s s'') ∧ ∀ page, answer = some page → Ledger B (blockPages o page ++ X) s s'' := by
  unfold Heap.newBlock at done
  cases alloc : s'.mem.allocBlock o with
  | mk answer' mem =>
      rw [alloc] at done
      obtain ⟨rfl, rfl⟩ := Prod.mk.inj done
      have tables : mem.mem = s'.mem.mem := by
        obtain ⟨supply, ⟨-, rfl⟩ | ⟨_, -, -, rfl⟩⟩ := State.allocBlock_cases alloc <;> rfl
      refine ⟨rfl, rfl, rfl, ⟨tables, rfl, rfl, rfl⟩, fun failed => ?_, fun page given => ?_⟩
      · subst failed
        obtain ⟨supply, ⟨-, rfl⟩ | ⟨_, none, -⟩⟩ := State.allocBlock_cases alloc
        · exact ledger.congr (fun _ _ => rfl) rfl rfl
        · cases none
      · subst given
        obtain ⟨supply, ⟨none, -⟩ | ⟨page', same, -, rfl⟩⟩ := State.allocBlock_cases alloc
        · cases none
        · obtain rfl := Option.some.inj same
          exact ledger.took rfl rfl ledger.alone

theorem deleteBlock {o : Nat} {page : Word} (ledger : Ledger B (blockPages o page ++ X) s s') :
    Ledger B X s (s'.deleteBlock o page) := by
  have mem : (s'.deleteBlock o page).mem = _ := State.foldl_free (blockPages o page) s'.mem
  refine ⟨by rw [mem]; exact ledger.alone, ledger.sound, ledger.buffers, ledger.pages, ?_, ledger.fresh, ledger.nodup⟩
  have live : s'.mem.live.Perm (blockPages o page ++ (slabs B ++ (X ++ s.mem.live))) := by
    refine ledger.live.trans ?_
    rw [List.append_assoc]
    exact List.perm_append_comm_assoc _ _ _
  have less := live.diff_right (blockPages o page)
  rw [State.diff_append] at less
  rw [mem]
  exact less

/-! ### Buffers -/

/-- The page of a slab, before and after -/
theorem backed (wf : s.WF cfg) (ledger : Ledger B X s s') {c : Cache} (owned : s.Owned c) {x : Nat}
    (member : x ∈ (s'.cache c).pages) : ∃ page ∈ s'.mem.live, Within pageBits 48 page ∧ page.toNat = x ∧
      (page ∈ slabs (inCache c B) ∨ page ∈ s.mem.live ∧ x ∈ (s.cache c).pages) := by
  rcases List.mem_append.mp ((ledger.pages c owned).mem_iff.mp member) with taken | old
  · obtain ⟨page, slab, rfl⟩ := List.mem_map.mp taken
    have here := slabs_inCache slab
    exact ⟨page, ledger.live.mem_iff.mpr (List.mem_append_left _ here), (ledger.fresh page here).2, rfl, Or.inl slab⟩
  · obtain ⟨page, live, within, rfl⟩ := wf.backed c owned x old
    refine ⟨page, ledger.live.mem_iff.mpr ?_, within, rfl, Or.inr ⟨live, old⟩⟩
    exact List.mem_append_right _ (List.mem_append_right _ live)

/-- What `new` does with the heap and with the account -/
structure New (c : Cache) (B : List Held) (X : List Word) (s s' : Heap) (answer : Option Nat) (s'' : Heap) : Prop where
  mem : s''.mem = (s'.mem.reserve (s'.needs c)).2
  given : answer.isSome = (s'.mem.reserve (s'.needs c)).1
  frame : Frame s' s''
  pds : s''.pds = s'.pds
  cache : ∃ d, s''.cache = Function.update s'.cache c d
  failed : answer = none → s''.cache = s'.cache ∧ Ledger B X s s''
  made : ∀ o, answer = some o → o ∉ (s'.cache c).live ∧ ∃ slab, Ledger (⟨c, o, slab⟩ :: B) X s s''

/-- The entry of a buffer -/
theorem enter (ledger : Ledger B X s s') {c : Cache} {d : SlabCache} {o : Nat} {slab : List Word}
    (cache : s''.cache = Function.update s'.cache c d) (sound : d.Sound) (live : d.live = o :: (s'.cache c).live)
    (pages : d.pages = slab.map BitVec.toNat ++ (s'.cache c).pages) (taken : s''.mem.live = slab ++ s'.mem.live)
    (alone : s''.mem.race = []) (unused : ∀ page ∈ slab, page ∉ s'.mem.live ∧ Within pageBits 48 page) (nodup : slab.Nodup) :
    Ledger (⟨c, o, slab⟩ :: B) X s s'' := by
  have old : ∀ page ∈ slab, page ∉ s.mem.live := fun page member was =>
    (unused page member).1 (ledger.live.mem_iff.mpr (List.mem_append_right _ (List.mem_append_right _ was)))
  have apart : ∀ page ∈ slab, page ∉ slabs B := fun page member other =>
    (unused page member).1 (ledger.live.mem_iff.mpr (List.mem_append_left _ other))
  have entry : inCache c (⟨c, o, slab⟩ :: B) = ⟨c, o, slab⟩ :: inCache c B := inCache_self ⟨c, o, slab⟩ B
  have self : s''.cache c = d := by rw [cache, Function.update_self]
  have others : ∀ c', c' ≠ c → s''.cache c' = s'.cache c' := fun c' other => by rw [cache, Function.update_of_ne other]
  refine ⟨alone, fun c' owned => ?_, fun c' owned => ?_, fun c' owned => ?_, ?_, ?_, ?_⟩
  · by_cases same : c' = c
    · rw [same, self]
      exact sound
    · rw [others c' same]
      exact ledger.sound c' owned
  · by_cases same : c' = c
    · subst same
      rw [self, live, entry]
      exact (ledger.buffers c' owned).cons o
    · rw [others c' same, inCache_other (Ne.symm same)]
      exact ledger.buffers c' owned
  · by_cases same : c' = c
    · subst same
      rw [self, pages, entry, slabs, List.flatMap_cons, List.map_append, List.append_assoc]
      exact (ledger.pages c' owned).append_left _
    · rw [others c' same, inCache_other (Ne.symm same)]
      exact ledger.pages c' owned
  · rw [slabs, List.flatMap_cons, List.append_assoc, taken]
    exact ledger.live.append_left _
  · intro page member
    rcases List.mem_append.mp (show page ∈ slab ++ slabs B from member) with here | before
    · exact ⟨old page here, (unused page here).2⟩
    · exact ledger.fresh page before
  · exact List.Nodup.append nodup ledger.nodup fun page here before => apart page here before

theorem new (wf : s.WF cfg) (ledger : Ledger B X s s') {c : Cache} (owned : s.Owned c) :
    ∃ answer s'', s'.new c = some (answer, s'') ∧ New c B X s s' answer s'' := by
  have sound := ledger.sound c owned
  unfold Heap.new
  cases current : (s'.cache c).curr with
  | some x =>
      -- a slab with a free buffer
      have needs : s'.needs c = [] := by rw [Heap.needs, current]; rfl
      obtain ⟨answer, d, done, sound', allocated⟩ := sound.alloc none
      have given : answer ≠ none := by
        intro none
        obtain ⟨⟨P, F, shape⟩, -⟩ := sound
        have empty := shape.curr_none_iff.mpr (allocated.refused.mp none).1
        rw [current] at empty
        cases empty
      obtain ⟨o, rfl⟩ := Option.ne_none_iff_exists'.mp given
      obtain ⟨dead, live, partial_, -⟩ := allocated.given o rfl
      refine ⟨some o, { s' with cache := Function.update s'.cache c d }, ?_, ?_, ?_, ⟨rfl, rfl, rfl, rfl⟩, rfl, ?_, ?_, ?_⟩
      · rw [if_neg (Option.some_ne_none x)]
        dsimp only [Option.map_none]
        rw [done]
      · rw [needs]
        rfl
      · rw [needs]
        rfl
      · exact ⟨d, rfl⟩
      · intro none
        cases none
      · rintro o' ⟨⟩
        exact ⟨dead, [], ledger.enter rfl sound' live (partial_ x current).2 rfl ledger.alone
          (List.forall_mem_nil _) List.nodup_nil⟩
  | none =>
      have needs : s'.needs c = [0] := by rw [Heap.needs, current]; rfl
      cases alloc : s'.mem.allocBlock 0 with
      | mk page mem =>
          have reserve : s'.mem.reserve [0] = (page.isSome, mem) := by
            rw [State.reserve, alloc]
            cases page <;> rfl
          obtain ⟨supply, ⟨rfl, rfl⟩ | ⟨page, rfl, usable, taken⟩⟩ := State.allocBlock_cases alloc
          · have refused : (s'.cache c).alloc none = some (none, s'.cache c) := by
              unfold SlabCache.alloc
              rw [current]
            refine ⟨none, { s' with mem := { s'.mem with supply } }, ?_, ?_, ?_, ⟨rfl, rfl, rfl, rfl⟩, rfl, ?_,
              fun _ => ⟨rfl, ?_⟩, ?_⟩
            · rw [if_pos rfl]
              dsimp only [Option.map_none]
              rw [refused]
              dsimp only
              rw [Function.update_eq_self]
            · rw [needs, reserve]
            · rw [needs, reserve]
              rfl
            · exact ⟨s'.cache c, by rw [Function.update_eq_self]⟩
            · exact ledger.congr (fun _ _ => rfl) rfl rfl
            · intro o given
              cases given
          · obtain ⟨-, within, free⟩ := usable
            rw [State.blockPages_zero, List.forall_mem_singleton] at free
            rw [State.blockPages_zero] at taken
            have cacheUsable : (s'.cache c).Usable page.toNat := by
              refine ⟨within.1, fun member => ?_⟩
              obtain ⟨page', live, -, same, -⟩ := ledger.backed wf owned member
              exact free (BitVec.eq_of_toNat_eq same ▸ live)
            obtain ⟨answer, d, done, sound', allocated⟩ := sound.alloc (some page.toNat)
            have given : answer ≠ none := fun none => (allocated.refused.mp none).2 _ rfl cacheUsable
            obtain ⟨o, rfl⟩ := Option.ne_none_iff_exists'.mp given
            obtain ⟨dead, live, -, grown⟩ := allocated.given o rfl
            obtain ⟨x, same, -, pages⟩ := grown current
            obtain rfl := Option.some.inj same
            refine ⟨some o, { s' with mem, cache := Function.update s'.cache c d }, ?_, ?_, ?_,
              ⟨by rw [taken], rfl, rfl, rfl⟩, rfl, ?_, ?_, ?_⟩
            · rw [if_pos rfl]
              dsimp only [Option.map_some]
              rw [done]
            · rw [needs, reserve]
            · rw [needs, reserve]
              rfl
            · exact ⟨d, rfl⟩
            · intro none
              cases none
            · rintro o' ⟨⟩
              exact ⟨dead, [page], ledger.enter rfl sound' live pages (by rw [taken]) (by rw [taken]; exact ledger.alone)
                (List.forall_mem_singleton.mpr ⟨free, within⟩) (List.nodup_singleton page)⟩

/-- A buffer and its slab leave the ledger. -/
theorem leave {c : Cache} {d : SlabCache} {o : Nat} {slab : List Word} (ledger : Ledger (⟨c, o, slab⟩ :: B) X s s')
    (only : ∀ h ∈ B, h.cache ≠ c) (cache : s''.cache = Function.update s'.cache c d) (sound : d.Sound)
    (live : d.live.Perm (s.cache c).live) (pages : d.pages.Perm (s.cache c).pages)
    (given : s''.mem.live = s'.mem.live.diff slab) (alone : s''.mem.race = []) : Ledger B X s s'' := by
  have self : s''.cache c = d := by rw [cache, Function.update_self]
  have others : ∀ c', c' ≠ c → s''.cache c' = s'.cache c' := fun c' other => by rw [cache, Function.update_of_ne other]
  refine ⟨alone, fun c' owned => ?_, fun c' owned => ?_, fun c' owned => ?_, ?_, ?_, ?_⟩
  · by_cases same : c' = c
    · rw [same, self]
      exact sound
    · rw [others c' same]
      exact ledger.sound c' owned
  · by_cases same : c' = c
    · rw [same, self, inCache_none only]
      exact live
    · have before := ledger.buffers c' owned
      rw [inCache_other (Ne.symm same)] at before
      rw [others c' same]
      exact before
  · by_cases same : c' = c
    · rw [same, self, inCache_none only]
      exact pages
    · have before := ledger.pages c' owned
      rw [inCache_other (Ne.symm same)] at before
      rw [others c' same]
      exact before
  · have before : s'.mem.live.Perm (slab ++ (slabs B ++ (X ++ s.mem.live))) := by
      have := ledger.live
      rwa [slabs, List.flatMap_cons, List.append_assoc] at this
    have less := before.diff_right slab
    rwa [State.diff_append, ← given] at less
  · exact fun page inside => ledger.fresh page (List.mem_append_right slab inside)
  · exact (List.nodup_append.mp (show (slab ++ slabs B).Nodup from ledger.nodup)).2.1

/-- **A buffer that comes and goes takes its slab along.** -/
theorem delete (wf : s.WF cfg) {c : Cache} {o : Nat} {slab : List Word} (ledger : Ledger (⟨c, o, slab⟩ :: B) X s s')
    (owned : s.Owned c) (only : ∀ h ∈ B, h.cache ≠ c) :
    ∃ s'', s'.delete c o = some s'' ∧ s''.pds = s'.pds.erase o ∧ Frame s' s'' ∧ Ledger B X s s'' := by
  have entry : inCache c (⟨c, o, slab⟩ :: B) = [⟨c, o, slab⟩] := by
    have self := inCache_self ⟨c, o, slab⟩ B
    dsimp only at self
    rw [self, inCache_none only]
  have buffers := ledger.buffers c owned
  have pages := ledger.pages c owned
  rw [entry] at buffers pages
  have member : o ∈ (s'.cache c).live := buffers.mem_iff.mpr List.mem_cons_self
  have sound := ledger.sound c owned
  obtain ⟨d, done, sound', freed⟩ := sound.free member
  have live : d.live.Perm (s.cache c).live := by
    rw [freed.live]
    simpa using buffers.erase o
  have kept : d.pages.Perm (s.cache c).pages := (wf.sound c owned).pages_perm sound' live
  have split : (s'.cache c).pages.Perm (slab.map BitVec.toNat ++ (s.cache c).pages) := by
    simpa [slabs] using pages
  -- the slab that goes back is the one that came
  have back : (d.returned.take (d.returned.length - (s'.cache c).returned.length)).map (BitVec.ofNat 64) = slab := by
    by_cases shared : ∃ q ∈ (s'.cache c).live, q ≠ o ∧ SlabCache.fromBuffer q = SlabCache.fromBuffer o
    · obtain ⟨returned, same⟩ := freed.kept shared
      rw [same] at kept
      have nothing : (slab.map BitVec.toNat).Perm [] :=
        (List.perm_append_right_iff (s.cache c).pages).mp (split.symm.trans kept)
      rw [returned, Nat.sub_self, List.take_zero, List.map_eq_nil_iff.mp nothing.eq_nil]
      rfl
    · have last : ∀ q ∈ (s'.cache c).live, q ≠ o → SlabCache.fromBuffer q ≠ SlabCache.fromBuffer o :=
        fun q inside ne same => shared ⟨q, inside, ne, same⟩
      obtain ⟨returned, erased, -⟩ := freed.last last
      have inside : SlabCache.fromBuffer o ∈ (s'.cache c).pages := (sound.pages_iff _).mpr ⟨o, member, rfl⟩
      rw [erased] at kept
      have whole := (List.perm_cons_erase inside).trans (kept.cons _)
      have one : (slab.map BitVec.toNat).Perm [SlabCache.fromBuffer o] :=
        (List.perm_append_right_iff (s.cache c).pages).mp (split.symm.trans whole)
      have single := List.perm_singleton.mp one
      obtain ⟨page, rfl⟩ := List.length_eq_one_iff.mp (show slab.length = 1 by simpa using congrArg List.length single)
      have value : page.toNat = SlabCache.fromBuffer o := by simpa using single
      rw [returned, List.length_cons, Nat.add_sub_cancel_left, List.take_succ_cons, List.take_zero, List.map_singleton,
        ← value, BitVec.ofNat_toNat, BitVec.setWidth_eq]
  have mem := State.foldl_free slab s'.mem
  unfold Heap.delete
  rw [done]
  dsimp only
  rw [← List.foldl_map, back]
  exact ⟨_, rfl, rfl, ⟨by rw [mem], rfl, rfl, rfl⟩, ledger.leave only rfl sound' live kept (by rw [mem]) (by rw [mem]; exact ledger.alone)⟩

/-! ### The invariant -/

/-- A call that ends with the same PDs keeps the invariant, whatever it holds. -/
theorem wf (wf : s.WF cfg) (ledger : Ledger B X s s') (pds : s'.pds = s.pds) : s'.WF cfg := by
  have same : ∀ c, s'.Owned c ↔ s.Owned c := by
    intro c
    cases c <;> simp [Heap.Owned, pds]
  refine ⟨ledger.alone, fun c owned => ledger.sound c ((same c).mp owned), fun c owned x member => ?_,
    fun c c' owned owned' ne x member other => ?_, fun pd member => ?_, fun k => ?_⟩
  · obtain ⟨page, live, within, value, -⟩ := ledger.backed wf ((same c).mp owned) member
    exact ⟨page, live, within, value⟩
  · have owned := (same c).mp owned
    have owned' := (same c').mp owned'
    obtain ⟨page, -, -, value, here⟩ := ledger.backed wf owned member
    obtain ⟨page', -, -, value', there⟩ := ledger.backed wf owned' other
    obtain rfl : page = page' := BitVec.eq_of_toNat_eq (value.trans value'.symm)
    rcases here with new | ⟨old, was⟩
    · rcases there with new' | ⟨old', -⟩
      · -- the slabs of the entries are distinct
        obtain ⟨h, inside, slab⟩ := List.mem_flatMap.mp new
        obtain ⟨h', inside', slab'⟩ := List.mem_flatMap.mp new'
        obtain ⟨entry, cache⟩ := List.mem_filter.mp inside
        obtain ⟨entry', cache'⟩ := List.mem_filter.mp inside'
        have cache : h.cache = c := of_decide_eq_true cache
        have cache' : h'.cache = c' := of_decide_eq_true cache'
        have apart : h ≠ h' := fun e => ne (cache.symm.trans (e ▸ cache'))
        have pair := (List.nodup_flatMap.mp ledger.nodup).2
        have : Std.Symm (Function.onFun List.Disjoint Held.slab) := ⟨fun _ _ disjoint _ here there => disjoint there here⟩
        exact pair.forall entry entry' apart slab slab'
      · exact (ledger.fresh page (slabs_inCache new)).1 old'
    · rcases there with new' | ⟨-, was'⟩
      · exact (ledger.fresh page (slabs_inCache new')).1 old
      · exact wf.apart c c' owned owned' ne x was was'
  · rw [pds] at member
    exact (ledger.buffers .pd trivial).mem_iff.mpr (List.mem_append_right _ (wf.pds pd member))
  · obtain ⟨page, live, value, none⟩ := wf.fixed k
    refine ⟨page, ledger.live.mem_iff.mpr (List.mem_append_right _ (List.mem_append_right _ live)), value,
      fun c owned member => ?_⟩
    have owned := (same c).mp owned
    obtain ⟨page', -, -, value', new | ⟨-, was⟩⟩ := ledger.backed wf owned member
    · obtain rfl : page' = page := BitVec.eq_of_toNat_eq value'
      exact (ledger.fresh page' (slabs_inCache new)).1 live
    · exact none c owned was

/-! ### What an account tells -/

/-- Pages that are held are missing. -/
theorem not_restored (ledger : Ledger B X s s') (some : X ≠ []) : ¬ s'.mem.live.Perm s.mem.live := by
  intro same
  have longer := ledger.live.length_eq
  rw [same.length_eq, List.length_append, List.length_append] at longer
  exact some (List.length_eq_zero_iff.mp (by omega))

/-- A buffer of the call and its slab -/
theorem slab_cases (wf : s.WF cfg) {c : Cache} {o : Nat} {slab : List Word} (ledger : Ledger (⟨c, o, slab⟩ :: B) X s s')
    (owned : s.Owned c) : ∃ page, Within pageBits 48 page ∧ page.toNat = SlabCache.fromBuffer o ∧
      (page ∉ s.mem.live ∨ page ∈ s.mem.live ∧ SlabCache.fromBuffer o ∈ (s.cache c).pages) := by
  have entry := inCache_self ⟨c, o, slab⟩ B
  dsimp only at entry
  have member : o ∈ (s'.cache c).live :=
    (ledger.buffers c owned).mem_iff.mpr (by rw [entry]; exact List.mem_cons_self)
  have paged := ((ledger.sound c owned).pages_iff _).mpr ⟨o, member, rfl⟩
  obtain ⟨page, -, within, value, new | old⟩ := ledger.backed wf owned paged
  · exact ⟨page, within, value, Or.inl (ledger.fresh page (slabs_inCache new)).1⟩
  · exact ⟨page, within, value, Or.inr old⟩

/-- **A buffer that a call takes was not live in any cache.** -/
theorem fresh_buffer (wf : s.WF cfg) {c c' : Cache} {o : Nat} {slab : List Word}
    (ledger : Ledger (⟨c, o, slab⟩ :: B) X s s') (owned : s.Owned c) (owned' : s.Owned c') : o ∉ (s.cache c').live := by
  intro member
  by_cases same : c' = c
  · subst same
    have entry := inCache_self ⟨c', o, slab⟩ B
    dsimp only at entry
    have buffers := ledger.buffers c' owned
    rw [entry] at buffers
    obtain ⟨⟨P, F, shape⟩, -⟩ := ledger.sound c' owned
    have nodup := buffers.nodup_iff.mp shape.nodupLive
    exact (List.nodup_cons.mp nodup).1 (List.mem_append_right _ member)
  · have paged := ((wf.sound c' owned').pages_iff _).mpr ⟨o, member, rfl⟩
    obtain ⟨page', live, -, value'⟩ := wf.backed c' owned' _ paged
    obtain ⟨page, -, value, new | ⟨-, old⟩⟩ := ledger.slab_cases wf owned
    · obtain rfl : page = page' := BitVec.eq_of_toNat_eq (value.trans value'.symm)
      exact new live
    · exact wf.apart c' c owned' owned same _ paged old

/-- Nor is it a space. -/
theorem fresh_space (wf : s.WF cfg) {c : Cache} {o : Nat} {slab : List Word} (ledger : Ledger (⟨c, o, slab⟩ :: B) X s s')
    (owned : s.Owned c) (k : SpaceKind) : ¬ s.Space cfg k o := by
  rintro (static | ⟨pd, member, live⟩)
  · obtain ⟨page', live, value', none⟩ := wf.fixed k
    obtain ⟨page, -, value, new | ⟨-, old⟩⟩ := ledger.slab_cases wf owned
    · obtain rfl : page = page' := BitVec.eq_of_toNat_eq (by rw [value, value', static])
      exact new live
    · rw [static, ← value'] at old
      exact none c owned old
  · have owned' : s.Owned (.space k pd) := member
    exact ledger.fresh_buffer wf owned owned' live

/-- Nor is it a PD. -/
theorem fresh_pd (wf : s.WF cfg) {c : Cache} {o : Nat} {slab : List Word} (ledger : Ledger (⟨c, o, slab⟩ :: B) X s s')
    (owned : s.Owned c) : o ∉ s.pds :=
  fun member => ledger.fresh_buffer wf owned (show s.Owned .pd from trivial) (wf.pds o member)

end Ledger

end Creation

end Nova.Kernel
