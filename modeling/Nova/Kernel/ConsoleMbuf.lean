/-
# Nova.Kernel.ConsoleMbuf — the memory-buffer console

`Console_mbuf::outc` of `src/console_mbuf.cpp` on the page of `inc/console_mbuf.hpp`,
which a reader in user space shares.  The lock of the console admits one `outc` at a
time; each of its accesses to the page is a step of its own, and the reader may come
between any two of them.

`log` records what the kernel writes, `written` the characters that it has published,
`consumed` and `dropped` the numbers of those that have left the buffer, and `seen` the
character that the reader has read at the present `r_idx`; no step of the kernel reads
them.

* `inside_bounds`: whatever the reader stores, the kernel stays inside the buffer.
* `Inv` counts characters from the beginning, and says that the indices are these
  counts modulo the number of entries; `mbuf_ring` is what follows for a reader that
  only advances over what it has read.  A reader that stores an index computed before
  the kernel moved `r_idx` does not advance it, and has the first result only.
-/
import Nova.Theory.Runs
import Mathlib.Data.List.Range
import Mathlib.Data.List.Perm.Basic
import Mathlib.Logic.Function.Basic

namespace Nova.Kernel.ConsoleMbuf

open Nova.Theory.Runs

set_option autoImplicit false

abbrev Char8 := BitVec 8

abbrev Idx := BitVec 32

/-- `BIT (PAGE_BITS + ord)` -/
abbrev size : Nat := 4096

/-- What the two indices leave of the page -/
abbrev entries : Nat := size - 4 - 4

/-- `i % regs->size % regs->entries` -/
def index (i : Idx) : Nat := i.toNat % size % entries

/-- `(i + 1) % regs->entries` -/
def next (i : Nat) : Nat := (i + 1) % entries

/-- A write of the kernel to the page -/
inductive Write where
  | buffer (i : Nat)
  | rIdx (v : Idx)
  | wIdx (v : Idx)

/-- Where `outc (c)` is; `r` and `w` are the raw indices that it has read. -/
inductive Place where
  | idle
  /-- before the read of `r_idx` -/
  | start (c : Char8)
  /-- before the read of `w_idx` -/
  | gotR (c : Char8) (r : Idx)
  /-- before the test for a full buffer -/
  | gotW (c : Char8) (r w : Idx)
  /-- before the store of the character -/
  | put (c : Char8) (w : Idx)
  /-- before the store of `w_idx` -/
  | publish (c : Char8) (w : Idx)

structure Mbuf where
  rIdx : Idx
  wIdx : Idx
  buffer : Nat → Char8
  /-- how often the semaphore was signalled -/
  ups : Nat
  place : Place
  log : List Write
  written : List Char8
  consumed : List (Nat × Char8)
  dropped : List Nat
  seen : Option Char8

inductive Op where
  /-- `outc (c)` is called. -/
  | call (c : Char8)
  /-- The kernel goes on. -/
  | kernel
  /-- The reader stores anything. -/
  | storeR (v : Idx)
  | storeW (v : Idx)
  /-- The reader reads the character at `r_idx`, if the buffer is not empty. -/
  | read
  /-- The reader advances `r_idx` to the next entry, over the character that it has read there. -/
  | advance

/-- The reader only advances over what it has read. -/
def Op.Disciplined : Op → Prop
  | .storeR _ | .storeW _ => False
  | _ => True

namespace Mbuf

/-- Both indices are 0. -/
def init (buffer : Nat → Char8) : Mbuf := ⟨0#32, 0#32, buffer, 0, .idle, [], [], [], [], none⟩

/-- The number of characters that have left the buffer -/
def taken (s : Mbuf) : Nat := s.consumed.length + s.dropped.length

/-- `regs->r_idx.compare_exchange (r, rn)` -/
def discard (s : Mbuf) (r : Idx) : Mbuf :=
  if s.rIdx = r then
    let rn := BitVec.ofNat 32 (next (index r))
    { s with rIdx := rn, log := .rIdx rn :: s.log, dropped := s.dropped ++ [s.taken], seen := none }
  else s

/-- The next access of `outc` -/
def kernel (s : Mbuf) : Option Mbuf :=
  match s.place with
  | .idle => none
  | .start c => some { s with place := .gotR c s.rIdx }
  | .gotR c r => some { s with place := .gotW c r s.wIdx }
  | .gotW c r w =>
      let s := if next (index w) = index r then s.discard r else s
      some { s with place := .put c w }
  | .put c w =>
      some { s with
        buffer := Function.update s.buffer (index w) c, log := .buffer (index w) :: s.log, place := .publish c w }
  | .publish c w =>
      let wn := BitVec.ofNat 32 (next (index w))
      some { s with
        wIdx := wn, log := .wIdx wn :: s.log, written := s.written ++ [c], place := .idle
        ups := if c = 0x0a#8 then s.ups + 1 else s.ups }

def step (op : Op) (s : Mbuf) : Option Mbuf :=
  match op with
  | .call c =>
      match s.place with
      | .idle => some { s with place := .start c }
      | _ => none
  | .kernel => s.kernel
  | .storeR v => some { s with rIdx := v, seen := none }
  | .storeW v => some { s with wIdx := v }
  | .read => if s.rIdx = s.wIdx then none else some { s with seen := some (s.buffer s.rIdx.toNat) }
  | .advance =>
      match s.seen with
      | some c => some { s with
          rIdx := BitVec.ofNat 32 (next s.rIdx.toNat), consumed := s.consumed ++ [(s.taken, c)], seen := none }
      | none => none

/-- The characters between `r_idx` and `w_idx` -/
def contents (s : Mbuf) : List Char8 :=
  (List.range ((s.wIdx.toNat + entries - s.rIdx.toNat) % entries)).map fun i => s.buffer ((s.rIdx.toNat + i) % entries)

end Mbuf

/-! ## Any reader -/

def Write.Inside : Write → Prop
  | .buffer i => i < entries
  | .rIdx v | .wIdx v => v.toNat < entries

theorem index_lt (i : Idx) : index i < entries := Nat.mod_lt _ (by decide)

theorem next_lt (i : Nat) : next i < entries := Nat.mod_lt _ (by decide)

/-- An index that the kernel stores -/
theorem toNat_next (i : Nat) : (BitVec.ofNat 32 (next i)).toNat = next i := by
  have small : next i < 4088 := next_lt i
  rw [BitVec.toNat_ofNat]
  omega

namespace Mbuf

/-- Everything that the kernel has written is inside. -/
def Bounded (s : Mbuf) : Prop := ∀ w ∈ s.log, w.Inside

theorem Bounded.push {s s' : Mbuf} {w : Write} (bounded : s.Bounded) (log : s'.log = w :: s.log) (inside : w.Inside) :
    s'.Bounded := by
  intro v member
  rw [log] at member
  rcases List.mem_cons.mp member with rfl | old
  · exact inside
  · exact bounded v old

theorem Bounded.discard {s : Mbuf} (bounded : s.Bounded) (r : Idx) : (s.discard r).Bounded := by
  unfold Mbuf.discard
  split
  · exact bounded.push rfl ((toNat_next _).trans_lt (next_lt _))
  · exact bounded

theorem Bounded.step {s s' : Mbuf} {op : Op} (bounded : s.Bounded) (done : s.step op = some s') : s'.Bounded := by
  cases op with
  | call c =>
      cases at_ : s.place <;> simp only [Mbuf.step, at_, Option.some.injEq, reduceCtorEq] at done
      exact done ▸ bounded
  | kernel =>
      cases at_ : s.place with
      | idle => simp [Mbuf.step, kernel, at_] at done
      | start c =>
          simp only [Mbuf.step, kernel, at_, Option.some.injEq] at done
          exact done ▸ bounded
      | gotR c r =>
          simp only [Mbuf.step, kernel, at_, Option.some.injEq] at done
          exact done ▸ bounded
      | gotW c r w =>
          simp only [Mbuf.step, kernel, at_, Option.some.injEq] at done
          rw [← done]
          split
          · exact bounded.discard r
          · exact bounded
      | put c w =>
          simp only [Mbuf.step, kernel, at_, Option.some.injEq] at done
          exact done ▸ bounded.push rfl (index_lt w)
      | publish c w =>
          simp only [Mbuf.step, kernel, at_, Option.some.injEq] at done
          exact done ▸ bounded.push rfl ((toNat_next _).trans_lt (next_lt _))
  | storeR v =>
      cases done
      exact bounded
  | storeW v =>
      cases done
      exact bounded
  | read =>
      simp only [Mbuf.step] at done
      split at done
      · cases done
      · cases done
        exact bounded
  | advance =>
      cases seen : s.seen <;> simp only [Mbuf.step, seen, Option.some.injEq, reduceCtorEq] at done
      exact done ▸ bounded

/-! ## A reader with discipline -/

/-- What one step does to the characters in the buffer -/
inductive Change (s s' : Mbuf) : Prop
  | quiet (contents : s'.contents = s.contents) (written : s'.written = s.written) (consumed : s'.consumed = s.consumed)
      (dropped : s'.dropped = s.dropped)
  /-- The oldest character makes room in a full buffer. -/
  | dropped (full : s.contents.length = entries - 1) (contents : s'.contents = s.contents.tail)
      (written : s'.written = s.written) (consumed : s'.consumed = s.consumed) (dropped : s'.dropped = s.dropped ++ [s.taken])
  /-- The reader takes the oldest character. -/
  | consumed (c : Char8) (contents : s.contents = c :: s'.contents) (written : s'.written = s.written)
      (consumed : s'.consumed = s.consumed ++ [(s.taken, c)]) (dropped : s'.dropped = s.dropped)
  /-- A character is published. -/
  | written (c : Char8) (contents : s'.contents = s.contents ++ [c]) (written : s'.written = s.written ++ [c])
      (consumed : s'.consumed = s.consumed) (dropped : s'.dropped = s.dropped)

/-- The index of the character number `k` -/
theorem index_eq {v : Idx} {k : Nat} (is : v.toNat = k % entries) : index v = k % entries := by
  change v.toNat = k % 4088 at is
  show v.toNat % 4096 % 4088 = k % 4088
  omega

theorem next_eq (k : Nat) : next (k % entries) = (k + 1) % entries := by
  show (k % 4088 + 1) % 4088 = (k + 1) % 4088
  omega

/-- What `outc` relies on: the number `t` was the first one in the buffer when it read `r_idx`. -/
def Knows (s : Mbuf) : Place → Prop
  | .idle | .start _ => True
  | .gotR _ r => ∃ t ≤ s.taken, r.toNat = t % entries ∧ s.written.length < t + entries
  | .gotW _ r w => ∃ t ≤ s.taken, r.toNat = t % entries ∧ s.written.length < t + entries ∧ w.toNat = s.written.length % entries
  | .put _ w => w.toNat = s.written.length % entries ∧ s.written.length + 1 < s.taken + entries
  | .publish c w => w.toNat = s.written.length % entries ∧ s.written.length + 1 < s.taken + entries ∧
      s.buffer (s.written.length % entries) = c

/-- Both indices count characters, modulo the number of entries. -/
structure Inv (s : Mbuf) : Prop where
  r : s.rIdx.toNat = s.taken % entries
  w : s.wIdx.toNat = s.written.length % entries
  le : s.taken ≤ s.written.length
  room : s.written.length < s.taken + entries
  stored : ∀ k, s.taken ≤ k → k < s.written.length → s.written[k]? = some (s.buffer (k % entries))
  seen : ∀ c, s.seen = some c → s.taken < s.written.length ∧ s.written[s.taken]? = some c
  knows : s.Knows s.place
  /-- The reader got every character that it consumed as it was written, and in order. -/
  consumed : ∀ k c, (k, c) ∈ s.consumed → k < s.taken ∧ s.written[k]? = some c
  order : (s.consumed.map Prod.fst).Pairwise (· < ·)
  /-- Every character that has left the buffer was either consumed or dropped. -/
  left : (s.consumed.map Prod.fst ++ s.dropped).Perm (List.range s.taken)

theorem inv_init (buffer : Nat → Char8) : (init buffer).Inv where
  r := rfl
  w := rfl
  le := Nat.le_refl 0
  room := by
    show 0 < 0 + 4088
    decide
  stored _ _ below := absurd below (Nat.not_lt_zero _)
  seen _ is := nomatch is
  knows := trivial
  consumed _ _ member := nomatch member
  order := List.Pairwise.nil
  left := List.Perm.refl _

namespace Inv

variable {s s' : Mbuf}

/-- The characters in the buffer are the last ones that were written. -/
theorem contents_eq (inv : s.Inv) : s.contents = s.written.drop s.taken := by
  have r : s.rIdx.toNat = s.taken % 4088 := inv.r
  have w : s.wIdx.toNat = s.written.length % 4088 := inv.w
  have room : s.written.length < s.taken + 4088 := inv.room
  have le := inv.le
  have count : (s.wIdx.toNat + entries - s.rIdx.toNat) % entries = s.written.length - s.taken := by
    show (s.wIdx.toNat + 4088 - s.rIdx.toNat) % 4088 = _
    omega
  rw [contents, count]
  apply List.ext_getElem?
  intro i
  by_cases inside : i < s.written.length - s.taken
  · have place : (s.rIdx.toNat + i) % entries = (s.taken + i) % entries := by
      show (s.rIdx.toNat + i) % 4088 = (s.taken + i) % 4088
      omega
    rw [List.getElem?_map, List.getElem?_range inside, Option.map_some, place, List.getElem?_drop]
    exact (inv.stored _ (by omega) (by omega)).symm
  · rw [List.getElem?_eq_none, List.getElem?_eq_none]
    · rw [List.length_drop]
      omega
    · rw [List.length_map, List.length_range]
      omega

theorem length_contents (inv : s.Inv) : s.contents.length = s.written.length - s.taken := by
  rw [inv.contents_eq, List.length_drop]

/-- A step of `outc` that only changes its place -/
theorem goto {p : Place} (inv : s.Inv) (knows : s.Knows p) : Inv { s with place := p } where
  r := inv.r
  w := inv.w
  le := inv.le
  room := inv.room
  stored := inv.stored
  seen := inv.seen
  knows := by cases p <;> exact knows
  consumed := inv.consumed
  order := inv.order
  left := inv.left

/-- One more character has left the buffer: the reader has consumed it, or the kernel drops it. -/
theorem leave {v : Idx} {consumed : List (Nat × Char8)} {dropped : List Nat} (inv : s.Inv) (any : s.taken < s.written.length)
    (index : v.toNat = (s.taken + 1) % entries) (count : consumed.length + dropped.length = s.taken + 1)
    (got : ∀ k c, (k, c) ∈ consumed → k < s.taken + 1 ∧ s.written[k]? = some c)
    (order : (consumed.map Prod.fst).Pairwise (· < ·))
    (left : (consumed.map Prod.fst ++ dropped).Perm (List.range s.taken ++ [s.taken])) :
    Inv { s with rIdx := v, consumed, dropped, seen := none } := by
  have le : s.taken ≤ consumed.length + dropped.length := by omega
  refine ⟨?_, inv.w, ?_, ?_, fun k low high => inv.stored k ?_ high, nofun, ?_, fun k c member => ?_, order, ?_⟩
  · show v.toNat = (consumed.length + dropped.length) % entries
    rw [count, index]
  · show consumed.length + dropped.length ≤ s.written.length
    omega
  · have room := inv.room
    show s.written.length < consumed.length + dropped.length + entries
    omega
  · have later : consumed.length + dropped.length ≤ k := low
    omega
  · have known := inv.knows
    change Knows _ s.place
    cases at_ : s.place with
    | idle => trivial
    | start c => trivial
    | gotR c r =>
        rw [at_] at known
        obtain ⟨t, before, rest⟩ := known
        exact ⟨t, before.trans le, rest⟩
    | gotW c r w =>
        rw [at_] at known
        obtain ⟨t, before, rest⟩ := known
        exact ⟨t, before.trans le, rest⟩
    | put c w =>
        rw [at_] at known
        exact ⟨known.1, known.2.trans_le (Nat.add_le_add_right le _)⟩
    | publish c w =>
        rw [at_] at known
        exact ⟨known.1, known.2.1.trans_le (Nat.add_le_add_right le _), known.2.2⟩
  · show k < consumed.length + dropped.length ∧ _
    rw [count]
    exact got k c member
  · show (consumed.map Prod.fst ++ dropped).Perm (List.range (consumed.length + dropped.length))
    rw [count, List.range_succ]
    exact left

/-- The reader advances. -/
theorem advance {c : Char8} (inv : s.Inv) (seen : s.seen = some c) :
    Inv { s with
      rIdx := BitVec.ofNat 32 (next s.rIdx.toNat), consumed := s.consumed ++ [(s.taken, c)], seen := none } := by
  obtain ⟨any, is⟩ := inv.seen c seen
  refine inv.leave any (by rw [toNat_next, inv.r, next_eq]) ?_ (fun k d member => ?_) ?_ ?_
  · rw [List.length_append, List.length_singleton, taken]
    omega
  · rcases List.mem_append.mp member with old | new
    · obtain ⟨below, same⟩ := inv.consumed k d old
      exact ⟨Nat.lt_succ_of_lt below, same⟩
    · obtain ⟨rfl, rfl⟩ := Prod.mk.inj (List.mem_singleton.mp new)
      exact ⟨Nat.lt_succ_self _, is⟩
  · rw [List.map_append, List.pairwise_append]
    refine ⟨inv.order, List.pairwise_singleton _ _, fun k first t last => ?_⟩
    obtain ⟨⟨k, d⟩, old, rfl⟩ := List.mem_map.mp first
    obtain rfl := List.mem_singleton.mp last
    exact (inv.consumed k d old).1
  · rw [List.map_append, List.append_assoc]
    refine (List.perm_append_comm.append_left _).trans ?_
    rw [← List.append_assoc]
    exact inv.left.append_right [s.taken]

/-- The kernel finds the buffer full: if nothing has been consumed since, it drops the oldest character. -/
theorem discard {c : Char8} {r w : Idx} (inv : s.Inv) (at_ : s.place = .gotW c r w) (full : next (index w) = index r) :
    (s.discard r).Inv ∧ (s.discard r).written = s.written ∧ s.written.length + 1 < (s.discard r).taken + entries ∧
      ((s.discard r).dropped = s.dropped ∨
        s.contents.length = entries - 1 ∧ (s.discard r).dropped = s.dropped ++ [s.taken]) := by
  have known := inv.knows
  rw [at_] at known
  obtain ⟨t, before, first, close, last⟩ := known
  have le := inv.le
  have here := inv.r
  rw [index_eq first, index_eq last, next_eq] at full
  change (s.written.length + 1) % 4088 = t % 4088 at full
  change s.written.length < t + 4088 at close
  change s.rIdx.toNat = s.taken % 4088 at here
  change r.toNat = t % 4088 at first
  have whole : s.written.length + 1 = t + 4088 := by omega
  by_cases same : s.rIdx = r
  · have oldest : s.taken = t := by
      have values := congrArg BitVec.toNat same
      omega
    have index : (BitVec.ofNat 32 (next (index r))).toNat = (s.taken + 1) % entries := by
      rw [toNat_next, index_eq (k := t) first, next_eq, oldest]
    have after : s.discard r =
        { s with
          rIdx := BitVec.ofNat 32 (next (ConsoleMbuf.index r)), log := .rIdx (BitVec.ofNat 32 (next (ConsoleMbuf.index r))) :: s.log
          dropped := s.dropped ++ [s.taken], seen := none } := if_pos same
    have inv' : Inv { s with
        rIdx := BitVec.ofNat 32 (next (ConsoleMbuf.index r)), consumed := s.consumed, dropped := s.dropped ++ [s.taken]
        seen := none } := by
      refine inv.leave (by omega) index ?_ (fun k d member => ?_) inv.order ?_
      · rw [List.length_append, List.length_singleton, taken]
        omega
      · obtain ⟨below, is⟩ := inv.consumed k d member
        exact ⟨Nat.lt_succ_of_lt below, is⟩
      · rw [← List.append_assoc]
        exact inv.left.append_right [s.taken]
    rw [after]
    refine ⟨⟨inv'.r, inv'.w, inv'.le, inv'.room, inv'.stored, inv'.seen, inv'.knows, inv'.consumed, inv'.order, inv'.left⟩, rfl,
      ?_, .inr ⟨?_, rfl⟩⟩
    · show s.written.length + 1 < s.consumed.length + (s.dropped ++ [s.taken]).length + 4088
      rw [List.length_append, List.length_singleton]
      have : s.taken = s.consumed.length + s.dropped.length := rfl
      omega
    · rw [inv.length_contents]
      show _ = 4087
      omega
  · have after : s.discard r = s := if_neg same
    rw [after]
    refine ⟨inv, rfl, ?_, .inl rfl⟩
    have moved : s.taken ≠ t := by
      intro is
      exact same (BitVec.eq_of_toNat_eq (by rw [here, first, is]))
    show s.written.length + 1 < s.taken + 4088
    omega

/-- The store of the character, into an entry that is not in use -/
theorem store {c : Char8} {w : Idx} (inv : s.Inv) (at_ : s.place = .put c w) :
    Inv { s with
      buffer := Function.update s.buffer (index w) c, log := .buffer (index w) :: s.log, place := .publish c w } := by
  have known := inv.knows
  rw [at_] at known
  obtain ⟨last, free⟩ := known
  change s.written.length + 1 < s.taken + 4088 at free
  refine ⟨inv.r, inv.w, inv.le, inv.room, fun k low high => ?_, inv.seen, ⟨last, free, ?_⟩, inv.consumed, inv.order, inv.left⟩
  · change s.taken ≤ k at low
    change k < s.written.length at high
    have other : k % entries ≠ index w := by
      rw [index_eq last]
      show k % 4088 ≠ s.written.length % 4088
      omega
    show s.written[k]? = some (Function.update s.buffer (index w) c (k % entries))
    rw [Function.update_of_ne other]
    exact inv.stored k low high
  · show Function.update s.buffer (index w) c (s.written.length % entries) = c
    rw [index_eq last, Function.update_self]

/-- The store of `w_idx` -/
theorem publish {c : Char8} {w : Idx} (inv : s.Inv) (log : List Write) (ups : Nat) (at_ : s.place = .publish c w) :
    Inv { s with
      wIdx := BitVec.ofNat 32 (next (index w)), log, written := s.written ++ [c], place := .idle, ups } := by
  have known := inv.knows
  rw [at_] at known
  obtain ⟨last, free, stored⟩ := known
  change s.written.length + 1 < s.taken + 4088 at free
  have count : (s.written ++ [c]).length = s.written.length + 1 := by rw [List.length_append, List.length_singleton]
  have kept {k : Nat} {d : Char8} (is : s.written[k]? = some d) : (s.written ++ [c])[k]? = some d := by
    rw [List.getElem?_append_left (List.getElem?_eq_some_iff.mp is).1, is]
  refine ⟨inv.r, ?_, ?_, ?_, fun k low high => ?_, fun d seen => ?_, trivial, fun k d member => ?_, inv.order, inv.left⟩
  · show (BitVec.ofNat 32 (next (index w))).toNat = (s.written ++ [c]).length % entries
    rw [toNat_next, index_eq last, next_eq, count]
  · show s.taken ≤ (s.written ++ [c]).length
    have := inv.le
    omega
  · show (s.written ++ [c]).length < s.taken + 4088
    omega
  · change s.taken ≤ k at low
    change k < (s.written ++ [c]).length at high
    by_cases old : k < s.written.length
    · exact kept (inv.stored k low old)
    · obtain rfl : k = s.written.length := by omega
      show (s.written ++ [c])[s.written.length]? = some (s.buffer (s.written.length % entries))
      rw [List.getElem?_concat_length, stored]
  · obtain ⟨any, is⟩ := inv.seen d seen
    refine ⟨?_, kept is⟩
    show s.taken < (s.written ++ [c]).length
    omega
  · obtain ⟨below, is⟩ := inv.consumed k d member
    exact ⟨below, kept is⟩

theorem drop_one {L : List Char8} {t : Nat} {c : Char8} (is : L[t]? = some c) : L.drop t = c :: L.drop (t + 1) := by
  obtain ⟨below, at_⟩ := List.getElem?_eq_some_iff.mp is
  rw [List.drop_eq_getElem_cons below, at_]

/-- The contents follow from what was written and from what has left. -/
theorem change (inv : s.Inv) (inv' : s'.Inv)
    (cases : (s'.written = s.written ∧ s'.consumed = s.consumed ∧ s'.dropped = s.dropped) ∨
      (s.contents.length = entries - 1 ∧ s'.written = s.written ∧ s'.consumed = s.consumed ∧
        s'.dropped = s.dropped ++ [s.taken]) ∨
      (∃ c, s.seen = some c ∧ s'.written = s.written ∧ s'.consumed = s.consumed ++ [(s.taken, c)] ∧ s'.dropped = s.dropped) ∨
      ∃ c, s'.written = s.written ++ [c] ∧ s'.consumed = s.consumed ∧ s'.dropped = s.dropped) : Change s s' := by
  have before := inv.contents_eq
  have after := inv'.contents_eq
  rcases cases with ⟨written, consumed, dropped⟩ | ⟨full, written, consumed, dropped⟩ | ⟨c, seen, written, consumed, dropped⟩ |
    ⟨c, written, consumed, dropped⟩
  · refine .quiet ?_ written consumed dropped
    rw [after, before, written, taken, consumed, dropped, taken]
  · refine .dropped full ?_ written consumed dropped
    have count : s'.taken = s.taken + 1 := by
      rw [taken, consumed, dropped, List.length_append, List.length_singleton, taken, Nat.add_assoc]
    rw [after, before, written, count, List.tail_drop]
  · refine .consumed c ?_ written consumed dropped
    have count : s'.taken = s.taken + 1 := by
      rw [taken, consumed, dropped, List.length_append, List.length_singleton, taken]
      omega
    rw [after, before, written, count]
    exact drop_one (inv.seen c seen).2
  · refine .written c ?_ written consumed dropped
    have count : s'.taken = s.taken := by rw [taken, consumed, dropped, taken]
    rw [after, before, written, count, List.drop_append_of_le_length inv.le]

/-- **One step**, of the kernel or of a reader with discipline -/
theorem step {op : Op} (inv : s.Inv) (fair : op.Disciplined) (done : s.step op = some s') : s'.Inv ∧ Change s s' := by
  cases op with
  | call c =>
      cases at_ : s.place <;> simp only [Mbuf.step, at_, Option.some.injEq, reduceCtorEq] at done
      rw [← done]
      have inv' := inv.goto (p := .start c) trivial
      exact ⟨inv', inv.change inv' (.inl ⟨rfl, rfl, rfl⟩)⟩
  | kernel =>
      have known := inv.knows
      cases at_ : s.place with
      | idle => simp [Mbuf.step, kernel, at_] at done
      | start c =>
          simp only [Mbuf.step, kernel, at_, Option.some.injEq] at done
          rw [← done]
          have inv' := inv.goto (p := .gotR c s.rIdx) ⟨s.taken, Nat.le_refl _, inv.r, inv.room⟩
          exact ⟨inv', inv.change inv' (.inl ⟨rfl, rfl, rfl⟩)⟩
      | gotR c r =>
          simp only [Mbuf.step, kernel, at_, Option.some.injEq] at done
          rw [← done]
          rw [at_] at known
          obtain ⟨t, before, first, close⟩ := known
          have inv' := inv.goto (p := .gotW c r s.wIdx) ⟨t, before, first, close, inv.w⟩
          exact ⟨inv', inv.change inv' (.inl ⟨rfl, rfl, rfl⟩)⟩
      | gotW c r w =>
          simp only [Mbuf.step, kernel, at_, Option.some.injEq] at done
          rw [← done]
          rw [at_] at known
          obtain ⟨t, before, first, close, last⟩ := known
          split
          · rename_i full
            obtain ⟨inv₁, written, free, gone⟩ := inv.discard at_ full
            have inv' := inv₁.goto (p := .put c w) ⟨by rw [written]; exact last, by rw [written]; exact free⟩
            refine ⟨inv', inv.change inv' ?_⟩
            have consumed : (s.discard r).consumed = s.consumed := by
              unfold Mbuf.discard
              split <;> rfl
            rcases gone with same | ⟨wasFull, dropped⟩
            · exact .inl ⟨written, consumed, same⟩
            · exact .inr (.inl ⟨wasFull, written, consumed, dropped⟩)
          · rename_i free
            rw [index_eq first, index_eq last, next_eq] at free
            have inv' := inv.goto (p := .put c w) ⟨last, by
              change ¬ (s.written.length + 1) % 4088 = t % 4088 at free
              change s.written.length < t + 4088 at close
              show s.written.length + 1 < s.taken + 4088
              have whole : s.written.length + 1 ≠ t + 4088 := fun is => free (by rw [is, Nat.add_mod_right])
              omega⟩
            exact ⟨inv', inv.change inv' (.inl ⟨rfl, rfl, rfl⟩)⟩
      | put c w =>
          simp only [Mbuf.step, kernel, at_, Option.some.injEq] at done
          rw [← done]
          have inv' := inv.store at_
          exact ⟨inv', inv.change inv' (.inl ⟨rfl, rfl, rfl⟩)⟩
      | publish c w =>
          simp only [Mbuf.step, kernel, at_, Option.some.injEq] at done
          rw [← done]
          have inv' := inv.publish (.wIdx (BitVec.ofNat 32 (next (index w))) :: s.log) (if c = 0x0a#8 then s.ups + 1 else s.ups) at_
          exact ⟨inv', inv.change inv' (.inr (.inr (.inr ⟨c, rfl, rfl, rfl⟩)))⟩
  | storeR v => exact fair.elim
  | storeW v => exact fair.elim
  | read =>
      simp only [Mbuf.step] at done
      split at done
      · cases done
      · rename_i more
        cases done
        have any : s.taken < s.written.length := by
          refine Nat.lt_of_le_of_ne inv.le fun is => more (BitVec.eq_of_toNat_eq ?_)
          rw [inv.r, inv.w, is]
        have inv' : Inv { s with seen := some (s.buffer s.rIdx.toNat) } := by
          refine ⟨inv.r, inv.w, inv.le, inv.room, inv.stored, fun c is => ⟨any, ?_⟩, inv.knows, inv.consumed, inv.order, inv.left⟩
          obtain rfl := Option.some.inj is
          rw [inv.r]
          exact inv.stored s.taken (Nat.le_refl _) any
        exact ⟨inv', inv.change inv' (.inl ⟨rfl, rfl, rfl⟩)⟩
  | advance =>
      cases seen : s.seen with
      | none => simp [Mbuf.step, seen] at done
      | some c =>
          simp only [Mbuf.step, seen, Option.some.injEq] at done
          rw [← done]
          have inv' := inv.advance seen
          exact ⟨inv', inv.change inv' (.inr (.inr (.inl ⟨c, seen, rfl, rfl, rfl⟩)))⟩

end Inv

/-- All of `outc (c)`, without the reader in between -/
def outc (c : Char8) : List Op := [.call c, .kernel, .kernel, .kernel, .kernel, .kernel]

/-- What is kept of a full buffer -/
def kept (s : Mbuf) : List Char8 := if s.contents.length = entries - 1 then s.contents.tail else s.contents

theorem Inv.along : ∀ {ops : List Op} {s s' : Mbuf}, s.Inv → (∀ op ∈ ops, op.Disciplined) →
    Nova.Theory.Runs.runs Mbuf.step s ops = some s' → s'.Inv
  | [], s, s', inv, _, run => by
      obtain rfl := Option.some.inj run
      exact inv
  | op :: rest, s, s', inv, fair, run => by
      obtain ⟨s₁, done, later⟩ := Option.bind_eq_some_iff.mp run
      exact Inv.along (inv.step (fair op List.mem_cons_self) done).1 (fun a member => fair a (List.mem_cons_of_mem op member)) later

theorem outc_run {s : Mbuf} (idle : s.place = .idle) (c : Char8) :
    ∃ s', runs Mbuf.step s (outc c) = some s' ∧ s'.place = .idle ∧ s'.written = s.written ++ [c] ∧
      s'.taken = if next (index s.wIdx) = index s.rIdx then s.taken + 1 else s.taken := by
  obtain ⟨rIdx, wIdx, buffer, ups, place, log, written, consumed, dropped, seen⟩ := s
  cases idle
  refine ⟨_, rfl, rfl, ?_, ?_⟩
  · by_cases full : next (index wIdx) = index rIdx
    · simp [full, discard]
    · simp [full]
  · by_cases full : next (index wIdx) = index rIdx
    · simp [full, discard, taken, Nat.add_assoc]
    · simp [full, taken]

/-- `outc` on its own: one character more, and one less if the buffer was full -/
theorem Inv.outc {s : Mbuf} (inv : s.Inv) (idle : s.place = .idle) (c : Char8) :
    ∃ s', runs Mbuf.step s (outc c) = some s' ∧ s'.place = .idle ∧ s'.contents = s.kept ++ [c] := by
  obtain ⟨s', run, idle', written, count⟩ := outc_run idle c
  have fair : ∀ op ∈ Mbuf.outc c, op.Disciplined := by
    intro op member
    simp only [Mbuf.outc, List.mem_cons, List.not_mem_nil, or_false] at member
    rcases member with rfl | rfl | rfl | rfl | rfl | rfl <;> trivial
  have inv' := inv.along fair run
  refine ⟨s', run, idle', ?_⟩
  have room : s.written.length < s.taken + 4088 := inv.room
  have le := inv.le
  have full : next (index s.wIdx) = index s.rIdx ↔ s.contents.length = entries - 1 := by
    rw [index_eq inv.w, index_eq inv.r, next_eq, inv.length_contents]
    show (s.written.length + 1) % 4088 = s.taken % 4088 ↔ s.written.length - s.taken = 4087
    omega
  rw [inv'.contents_eq, written, count, kept]
  by_cases whole : s.contents.length = entries - 1
  · rw [if_pos (full.mpr whole), if_pos whole]
    rw [inv.length_contents] at whole
    change _ = 4087 at whole
    rw [List.drop_append_of_le_length (by omega), inv.contents_eq, List.tail_drop]
  · rw [if_neg fun is => whole (full.mp is), if_neg whole, List.drop_append_of_le_length le, inv.contents_eq]

/-- What a reader with discipline finds in every state -/
structure Ring (s : Mbuf) : Prop where
  contents : s.contents = s.written.drop s.taken
  short : s.contents.length ≤ entries - 1
  /-- The reader got every character that it consumed as it was written, and each at most once. -/
  consumed : ∀ k c, (k, c) ∈ s.consumed → k < s.taken ∧ s.written[k]? = some c
  order : (s.consumed.map Prod.fst).Pairwise (· < ·)
  /-- Nothing is lost but what was dropped. -/
  left : (s.consumed.map Prod.fst ++ s.dropped).Perm (List.range s.taken)
  change : ∀ op s', op.Disciplined → s.step op = some s' → Change s s'
  outc : s.place = .idle → ∀ c, ∃ s', runs Mbuf.step s (outc c) = some s' ∧ s'.place = .idle ∧ s'.contents = s.kept ++ [c]

theorem Inv.ring {s : Mbuf} (inv : s.Inv) : s.Ring where
  contents := inv.contents_eq
  short := by
    rw [inv.length_contents]
    have room : s.written.length < s.taken + 4088 := inv.room
    show _ ≤ 4087
    omega
  consumed := inv.consumed
  order := inv.order
  left := inv.left
  change _ _ fair done := (inv.step fair done).2
  outc := inv.outc

end Mbuf

/-- **The memory console.**  Whatever the reader stores in the two indices, the kernel
writes only below the number of entries.  If the reader only advances over characters
that it has read, then in every state the characters between the indices are the last
ones that were written, up to one less than there are entries; only a full buffer drops
a character, which is the oldest one, and what has left does not come back. -/
theorem mbuf_ring (buffer : Nat → Char8) (ops : List Op) (s : Mbuf) (run : runs Mbuf.step (Mbuf.init buffer) ops = some s) :
    (∀ w ∈ s.log, w.Inside) ∧ ((∀ op ∈ ops, op.Disciplined) → s.Ring) :=
  ⟨runs_keeps (I := Mbuf.Bounded) (fun _ _ _ bounded done => bounded.step done) (fun _ member => absurd member List.not_mem_nil) run,
    fun fair => ((Mbuf.inv_init buffer).along fair run).ring⟩

/-- The reader takes the first of two characters while the second one is on its way. -/
theorem mbuf_ring_two : ∃ s,
    runs Mbuf.step (Mbuf.init fun _ => 0#8) [.call 0x61#8, .kernel, .kernel, .kernel, .kernel, .kernel, .read, .call 0x62#8,
      .kernel, .kernel, .advance, .kernel, .kernel, .kernel] = some s ∧
      s.contents = [0x62#8] ∧ s.consumed = [(0, 0x61#8)] ∧ s.dropped = [] ∧ s.Ring := by
  have outcome : (runs Mbuf.step (Mbuf.init fun _ => 0#8) [.call 0x61#8, .kernel, .kernel, .kernel, .kernel, .kernel, .read,
      .call 0x62#8, .kernel, .kernel, .advance, .kernel, .kernel, .kernel]).map
      (fun s => (s.contents, s.consumed, s.dropped)) = some ([0x62#8], [(0, 0x61#8)], []) := by
    decide +kernel
  obtain ⟨s, run, values⟩ := Option.map_eq_some_iff.mp outcome
  obtain ⟨contents, rest⟩ := Prod.mk.inj values
  obtain ⟨consumed, dropped⟩ := Prod.mk.inj rest
  refine ⟨s, run, contents, consumed, dropped, (mbuf_ring _ _ s run).2 fun op member => ?_⟩
  simp only [List.mem_cons, List.not_mem_nil, or_false] at member
  rcases member with rfl | rfl | rfl | rfl | rfl | rfl | rfl | rfl | rfl | rfl | rfl | rfl | rfl | rfl <;> trivial

end Nova.Kernel.ConsoleMbuf
