/-
# Nova.Kernel.Spinlock — the ticket spinlock

`Spinlock` of `inc/x86_64/spinlock.hpp` and `inc/aarch64/spinlock.hpp`: one 32-bit
word with the next ticket in the upper half and the current one in the lower half.
Every access to the word is a step of its own.  On x86 a ticket is drawn by one
`xadd`; on aarch64 by a pair of load and store exclusive, which fails if the word was
written in between (`monitor`).  `unlock` reads the word and then stores the lower
half, 16 bits wide, so tickets may be drawn between the two.

`drew` and `entered` are the order in which tickets were drawn and in which the lock
was taken, `left` counts the unlocks; no step reads them.

* `Inv` ties the two halves to the histories modulo `2^16`, and every contender to its
  place in the order.
* `ticket_lock` is mutual exclusion, first come first served, and that the halves stay
  apart, over any number of acquisitions.
-/
import Nova.Theory.Runs
import Mathlib.Data.Fintype.Card
import Mathlib.Data.List.Nodup

namespace Nova.Kernel.Spinlock

open Nova.Theory.Runs

set_option autoImplicit false

/-- `val`: nxt[31:16] cur[15:0] -/
abbrev Val := BitVec 32

def nxt (val : Val) : BitVec 16 := (val >>> 16).setWidth 16

def cur (val : Val) : BitVec 16 := val.setWidth 16

/-- A 16-bit store to the lower half -/
def setCur (val : Val) (v : BitVec 16) : Val := nxt val ++ v

/-- `val + BIT (16)` -/
def next (val : Val) : Val := val + 0x10000#32

inductive Arch where
  | x86 | aarch64
  deriving DecidableEq

/-- Where a contender is; `old` is the word from which it has its ticket. -/
inductive Place where
  | idle
  /-- between load and store exclusive -/
  | linked (old : Val)
  /-- before the first comparison -/
  | drawn (old : Val)
  /-- before it reads the current ticket again -/
  | spin (old : Val)
  /-- before it compares the current ticket that it has read -/
  | seen (old : Val) (cur : BitVec 16)
  | inside
  /-- `unlock` is about to store the lower half. -/
  | leave (v : BitVec 16)
  deriving DecidableEq

structure Lock (ι : Type) where
  val : Val
  monitor : ι → Bool
  place : ι → Place
  drew : List ι
  entered : List ι
  left : Nat

inductive Op where
  | xadd | ldaxr | stxr (ok : Bool) | compare | read | load | store
  deriving DecidableEq

/-- The first comparison: `cmp` of the two halves, or `eor` of the word with itself rotated -/
def ours (arch : Arch) (old : Val) : Bool :=
  match arch with
  | .x86 => old >>> 16 = (cur old).setWidth 32
  | .aarch64 => old ^^^ old.rotateRight 16 = 0#32

/-- The comparison with a current ticket that was read later -/
def oursNow (arch : Arch) (old : Val) (v : BitVec 16) : Bool :=
  match arch with
  | .x86 => old >>> 16 = v.setWidth 32
  | .aarch64 => v.setWidth 32 ^^^ (old >>> 16) = 0#32

/-- What `unlock` stores: `incw`, or the lower half of `val + 1` -/
def bump (arch : Arch) (val : Val) : BitVec 16 :=
  match arch with
  | .x86 => cur val + 1#16
  | .aarch64 => cur (val + 1#32)

namespace Lock

variable {ι : Type}

def init : Lock ι := ⟨0#32, fun _ => false, fun _ => .idle, [], [], 0⟩

/-- A store to the word clears the monitor of every contender. -/
def write (s : Lock ι) (val : Val) : Lock ι := { s with val, monitor := fun _ => false }

/-- Between `lock` and the store of `unlock` -/
def Holds (s : Lock ι) (c : ι) : Prop :=
  match s.place c with
  | .inside | .leave _ => True
  | _ => False

variable [DecidableEq ι]

def moveTo (s : Lock ι) (c : ι) (p : Place) : Lock ι := { s with place := Function.update s.place c p }

/-- The word becomes `new`, and the old one stays in a register. -/
def draw (s : Lock ι) (c : ι) (old new : Val) : Lock ι :=
  { (s.write new).moveTo c (.drawn old) with drew := s.drew ++ [c] }

def enter (s : Lock ι) (c : ι) : Lock ι := { s.moveTo c .inside with entered := s.entered ++ [c] }

/-- One access of the contender `c`, or one comparison -/
def step (arch : Arch) (act : ι × Op) (s : Lock ι) : Option (Lock ι) :=
  let c := act.1
  match act.2, s.place c with
  | .xadd, .idle => if arch = .x86 then some (s.draw c s.val (next s.val)) else none
  | .ldaxr, .idle =>
      if arch = .aarch64 then
        some { s.moveTo c (.linked s.val) with monitor := Function.update s.monitor c true }
      else none
  | .stxr true, .linked old =>
      if s.monitor c then some (s.draw c old (next old)) else none
  -- a store exclusive may fail without a reason
  | .stxr false, .linked _ => some (s.moveTo c .idle)
  | .compare, .drawn old => some (if ours arch old then s.enter c else s.moveTo c (.spin old))
  | .read, .spin old => some (s.moveTo c (.seen old (cur s.val)))
  | .compare, .seen old v => some (if oursNow arch old v then s.enter c else s.moveTo c (.spin old))
  | .load, .inside => some (s.moveTo c (.leave (bump arch s.val)))
  | .store, .leave v => some { (s.write (setCur s.val v)).moveTo c .idle with left := s.left + 1 }
  | _, _ => none

end Lock

/-! ## The two halves -/

theorem toNat_nxt (val : Val) : (nxt val).toNat = val.toNat / 2 ^ 16 := by
  have small := val.isLt
  rw [nxt, BitVec.toNat_setWidth, BitVec.toNat_ushiftRight, Nat.shiftRight_eq_div_pow]
  omega

theorem toNat_cur (val : Val) : (cur val).toNat = val.toNat % 2 ^ 16 := BitVec.toNat_setWidth 16 val

theorem toNat_next (val : Val) : (next val).toNat = (val.toNat + 2 ^ 16) % 2 ^ 32 := by
  unfold next
  exact BitVec.toNat_add val 0x10000#32

/-- The addition of `2^16` wraps around in the upper half. -/
theorem nxt_next (val : Val) : nxt (next val) = nxt val + 1#16 := by
  apply BitVec.eq_of_toNat_eq
  rw [BitVec.toNat_add, toNat_nxt, toNat_nxt, toNat_next, BitVec.toNat_ofNat]
  have small := val.isLt
  omega

theorem cur_next (val : Val) : cur (next val) = cur val := by
  apply BitVec.eq_of_toNat_eq
  rw [toNat_cur, toNat_cur, toNat_next]
  omega

theorem nxt_setCur (val : Val) (v : BitVec 16) : nxt (setCur val v) = nxt val := by
  apply BitVec.eq_of_toNat_eq
  have small := v.isLt
  rw [toNat_nxt, setCur, BitVec.toNat_append, ← Nat.shiftLeft_add_eq_or_of_lt small, Nat.shiftLeft_eq]
  omega

theorem cur_setCur (val : Val) (v : BitVec 16) : cur (setCur val v) = v := by
  apply BitVec.eq_of_toNat_eq
  have small := v.isLt
  rw [toNat_cur, setCur, BitVec.toNat_append, ← Nat.shiftLeft_add_eq_or_of_lt small, Nat.shiftLeft_eq]
  omega

/-- Either the word stays, or one half counts up and the other one stays. -/
def Halves (val val' : Val) : Prop :=
  val' = val ∨ (nxt val' = nxt val + 1#16 ∧ cur val' = cur val) ∨ (nxt val' = nxt val ∧ cur val' = cur val + 1#16)

theorem halves_next (val : Val) : Halves val (next val) := .inr (.inl ⟨nxt_next val, cur_next val⟩)

theorem halves_setCur {val : Val} {v : BitVec 16} (value : v = cur val + 1#16) : Halves val (setCur val v) :=
  .inr (.inr ⟨nxt_setCur val v, (cur_setCur val v).trans value⟩)

theorem bump_eq (arch : Arch) (val : Val) : bump arch val = cur val + 1#16 := by
  cases arch with
  | x86 => rfl
  | aarch64 =>
      apply BitVec.eq_of_toNat_eq
      rw [bump, toNat_cur, BitVec.toNat_add, BitVec.toNat_add, toNat_cur]
      simp only [BitVec.toNat_ofNat]
      omega

/-- A register with a ticket in its lower half -/
theorem shift_eq_iff (old : Val) (v : BitVec 16) : old >>> 16 = v.setWidth 32 ↔ nxt old = v := by
  have small := v.isLt
  rw [← BitVec.toNat_inj, ← BitVec.toNat_inj, toNat_nxt, BitVec.toNat_ushiftRight, Nat.shiftRight_eq_div_pow,
    BitVec.toNat_setWidth, Nat.mod_eq_of_lt (lt_trans small (by decide))]

theorem oursNow_iff (arch : Arch) (old : Val) (v : BitVec 16) : oursNow arch old v = true ↔ nxt old = v := by
  cases arch with
  | x86 => simp only [oursNow, decide_eq_true_eq, shift_eq_iff]
  | aarch64 =>
      simp only [oursNow, decide_eq_true_eq, BitVec.xor_eq_zero_iff]
      exact eq_comm.trans (shift_eq_iff old v)

/-- Rotation by half of the word exchanges the halves. -/
theorem toNat_rotate (val : Val) : (val.rotateRight 16).toNat = (cur val).toNat * 2 ^ 16 + (nxt val).toNat := by
  have high := (nxt val).isLt
  rw [toNat_nxt] at high
  rw [BitVec.toNat_rotateRight, show 16 % 32 = 16 from rfl, show 32 - 16 = 16 from rfl, Nat.shiftRight_eq_div_pow,
    Nat.shiftLeft_eq, toNat_cur, toNat_nxt]
  have swap : val.toNat * 2 ^ 16 % 2 ^ 32 = (val.toNat % 2 ^ 16) <<< 16 := by
    rw [Nat.shiftLeft_eq]
    omega
  rw [swap, Nat.or_comm, ← Nat.shiftLeft_add_eq_or_of_lt high, Nat.shiftLeft_eq]

theorem ours_iff (arch : Arch) (old : Val) : ours arch old = true ↔ nxt old = cur old := by
  cases arch with
  | x86 => simp only [ours, decide_eq_true_eq, shift_eq_iff]
  | aarch64 =>
      simp only [ours, decide_eq_true_eq, BitVec.xor_eq_zero_iff]
      rw [← BitVec.toNat_inj, ← BitVec.toNat_inj, toNat_rotate, toNat_nxt, toNat_cur]
      omega

/-! ## The invariant -/

namespace Lock

variable {ι : Type}

/-- `c` has drawn the ticket `k` and has not entered. -/
def Ticket (s : Lock ι) (c : ι) (old : Val) (k : Nat) : Prop :=
  s.entered.length ≤ k ∧ s.drew[k]? = some c ∧ nxt old = BitVec.ofNat 16 k

/-- `v` is a current ticket that was read when `k` had been drawn. -/
def Read (s : Lock ι) (v : BitVec 16) (k : Nat) : Prop := ∃ l ≤ s.left, v = BitVec.ofNat 16 l ∧ k < l + 2 ^ 16

/-- `c` is the last one that entered, and has not left. -/
def Owner (s : Lock ι) (c : ι) : Prop := s.entered.length = s.left + 1 ∧ s.drew[s.left]? = some c

/-- What a contender relies on at its place -/
def Knows (s : Lock ι) (c : ι) : Place → Prop
  | .idle => c ∉ s.drew.drop s.left
  | .linked old => c ∉ s.drew.drop s.left ∧ (s.monitor c = true → old = s.val)
  | .drawn old => ∃ k, s.Ticket c old k ∧ s.Read (cur old) k
  | .spin old => ∃ k, s.Ticket c old k
  | .seen old v => ∃ k, s.Ticket c old k ∧ s.Read v k
  | .inside => s.Owner c
  | .leave v => s.Owner c ∧ v = BitVec.ofNat 16 (s.left + 1)

structure Inv (s : Lock ι) : Prop where
  nxt : nxt s.val = BitVec.ofNat 16 s.drew.length
  cur : cur s.val = BitVec.ofNat 16 s.left
  order : s.entered <+: s.drew
  served : s.left ≤ s.entered.length ∧ s.entered.length ≤ s.left + 1
  /-- Nobody has two tickets that are not used up. -/
  single : (s.drew.drop s.left).Nodup
  knows : ∀ c, s.Knows c (s.place c)

theorem inv_init : (init : Lock ι).Inv := by
  have zero : Spinlock.nxt 0#32 = BitVec.ofNat 16 0 ∧ Spinlock.cur 0#32 = BitVec.ofNat 16 0 := by decide
  refine ⟨zero.1, zero.2, List.nil_prefix, ⟨Nat.le_refl 0, Nat.zero_le 1⟩, List.nodup_nil, fun c => ?_⟩
  exact List.not_mem_nil

/-- Tickets that are less than `2^16` apart are told apart by 16 bits. -/
theorem ticket_eq {l k : Nat} (le : l ≤ k) (near : k < l + 2 ^ 16) (same : BitVec.ofNat 16 k = BitVec.ofNat 16 l) :
    k = l := by
  have values := congrArg BitVec.toNat same
  rw [BitVec.toNat_ofNat, BitVec.toNat_ofNat] at values
  omega

theorem ofNat_succ (n : Nat) : BitVec.ofNat 16 n + 1#16 = BitVec.ofNat 16 (n + 1) := by
  rw [← BitVec.ofNat_add]

namespace Inv

variable {s : Lock ι}

theorem left_le (inv : s.Inv) : s.left ≤ s.drew.length := inv.served.1.trans inv.order.length_le

/-- Tickets that were drawn after the last unlock are close together. -/
theorem near [Fintype ι] (inv : s.Inv) (few : Fintype.card ι < 2 ^ 16) : s.drew.length < s.left + 2 ^ 16 := by
  have short := inv.single.length_le_card
  rw [List.length_drop] at short
  omega

/-- At most one contender has entered and not left. -/
theorem owner_unique {c d : ι} (first : s.Owner c) (second : s.Owner d) : c = d :=
  Option.some.inj (first.2.symm.trans second.2)

theorem owner_of_holds (inv : s.Inv) {c : ι} (holds : s.Holds c) : s.Owner c := by
  have known := inv.knows c
  unfold Holds at holds
  cases here : s.place c with
  | inside => rwa [here] at known
  | leave v =>
      rw [here] at known
      exact known.1
  | _ =>
      rw [here] at holds
      exact holds.elim

/-- A ticket that compares equal is the current one, and nobody is inside. -/
theorem current {c : ι} {old : Val} {v : BitVec 16} {k : Nat} (inv : s.Inv) (ticket : s.Ticket c old k)
    (read : s.Read v k) (equal : Spinlock.nxt old = v) : s.entered.length = s.left ∧ k = s.left := by
  obtain ⟨notYet, -, number⟩ := ticket
  obtain ⟨l, le, value, close⟩ := read
  have below := inv.served.1
  have same : k = l := ticket_eq (by omega) close (by rw [← number, ← value, equal])
  omega

end Inv

variable [DecidableEq ι] {s s' : Lock ι} {c : ι}

/-- The rule for a step of `c`: what the others know stays true. -/
theorem Inv.others {p : Place} (inv : s.Inv) (moved : s'.place = Function.update s.place c p) (known : s'.Knows c p)
    (same : ∀ d q, d ≠ c → s.Knows d q → s'.Knows d q) (d : ι) : s'.Knows d (s'.place d) := by
  by_cases here : d = c
  · rw [moved, here, Function.update_self]
    exact known
  · rw [moved, Function.update_of_ne here]
    exact same d _ here (inv.knows d)

/-- A step that only moves `c` -/
theorem Inv.moveTo {p : Place} (inv : s.Inv) (known : s.Knows c p) : (s.moveTo c p).Inv := by
  have same (d : ι) (q : Place) : (s.moveTo c p).Knows d q ↔ s.Knows d q := by
    cases q <;> exact Iff.rfl
  refine ⟨inv.nxt, inv.cur, inv.order, inv.served, inv.single, ?_⟩
  exact inv.others rfl ((same c p).mpr known) fun d q _ => (same d q).mpr

/-- `ldaxr` -/
theorem Inv.link (inv : s.Inv) (free : c ∉ s.drew.drop s.left) :
    Inv { s.moveTo c (.linked s.val) with monitor := Function.update s.monitor c true } := by
  refine ⟨inv.nxt, inv.cur, inv.order, inv.served, inv.single, inv.others rfl ⟨free, fun _ => rfl⟩ fun d q other known => ?_⟩
  cases q with
  | linked old =>
      refine ⟨known.1, fun armed => known.2 ?_⟩
      change Function.update s.monitor c true d = true at armed
      rwa [Function.update_of_ne other] at armed
  | _ => exact known

/-- `xadd`, and the store exclusive that succeeds -/
theorem Inv.draw [Fintype ι] (few : Fintype.card ι < 2 ^ 16) {new : Val} (inv : s.Inv) (free : c ∉ s.drew.drop s.left)
    (upper : Spinlock.nxt new = Spinlock.nxt s.val + 1#16) (lower : Spinlock.cur new = Spinlock.cur s.val) :
    (s.draw c s.val new).Inv := by
  have window : (s.drew ++ [c]).drop s.left = s.drew.drop s.left ++ [c] := List.drop_append_of_le_length inv.left_le
  have single : ((s.drew ++ [c]).drop s.left).Nodup := by
    rw [window]
    exact inv.single.append (List.nodup_singleton c) (by simpa using free)
  have near : s.drew.length < s.left + 2 ^ 16 := inv.near few
  have number : Spinlock.nxt new = BitVec.ofNat 16 (s.drew ++ [c]).length := by
    rw [upper, inv.nxt, ofNat_succ, List.length_append, List.length_singleton]
  refine ⟨number, lower.trans inv.cur, inv.order.trans (List.prefix_append _ _), inv.served, single,
    inv.others rfl ?_ fun d q other known => ?_⟩
  · exact ⟨s.drew.length, ⟨inv.order.length_le, List.getElem?_concat_length, inv.nxt⟩, s.left, Nat.le_refl _, inv.cur, near⟩
  · have later {old : Val} {k : Nat} (ticket : s.Ticket d old k) : (s.draw c s.val new).Ticket d old k := by
      obtain ⟨notYet, at_, value⟩ := ticket
      refine ⟨notYet, ?_, value⟩
      change (s.drew ++ [c])[k]? = some d
      rw [List.getElem?_append_left (List.getElem?_eq_some_iff.mp at_).1]
      exact at_
    have absent (out : d ∉ s.drew.drop s.left) : d ∉ (s.drew ++ [c]).drop s.left := by
      rw [window]
      simp [out, other]
    have owner (first : s.Owner d) : (s.draw c s.val new).Owner d := by
      refine ⟨first.1, ?_⟩
      change (s.drew ++ [c])[s.left]? = some d
      rw [List.getElem?_append_left (List.getElem?_eq_some_iff.mp first.2).1]
      exact first.2
    cases q with
    | idle => exact absent known
    | linked old => exact ⟨absent known.1, fun armed => absurd armed Bool.false_ne_true⟩
    | drawn old =>
        obtain ⟨k, ticket, read⟩ := known
        exact ⟨k, later ticket, read⟩
    | spin old =>
        obtain ⟨k, ticket⟩ := known
        exact ⟨k, later ticket⟩
    | seen old v =>
        obtain ⟨k, ticket, read⟩ := known
        exact ⟨k, later ticket, read⟩
    | inside => exact owner known
    | leave v => exact ⟨owner known.1, known.2⟩

/-- The comparison that succeeds -/
theorem Inv.enter {old : Val} {v : BitVec 16} {k : Nat} (inv : s.Inv) (ticket : s.Ticket c old k) (read : s.Read v k)
    (equal : Spinlock.nxt old = v) : (s.enter c).Inv := by
  obtain ⟨nobody, rfl⟩ := inv.current ticket read equal
  have length : (s.entered ++ [c]).length = s.left + 1 := by rw [List.length_append, nobody, List.length_singleton]
  have order : s.entered ++ [c] <+: s.drew := by
    have earlier := List.prefix_iff_eq_take.mp inv.order
    rw [List.prefix_iff_eq_take, length, List.take_add_one, ticket.2.1, ← nobody, ← earlier]
    rfl
  have served : s.left ≤ (s.entered ++ [c]).length ∧ (s.entered ++ [c]).length ≤ s.left + 1 := by omega
  refine ⟨inv.nxt, inv.cur, order, served, inv.single, inv.others rfl ⟨length, ticket.2.1⟩ fun d q other known => ?_⟩
  have later {old : Val} {k : Nat} (mine : s.Ticket d old k) : (s.enter c).Ticket d old k := by
    refine ⟨?_, mine.2⟩
    change (s.entered ++ [c]).length ≤ k
    have apart : k ≠ s.left := by
      rintro rfl
      exact other (Option.some.inj (mine.2.1.symm.trans ticket.2.1))
    have := mine.1
    omega
  have alone (owner : s.Owner d) : False := by
    have := owner.1
    omega
  cases q with
  | idle => exact known
  | linked old => exact known
  | drawn old =>
      obtain ⟨k, mine, read⟩ := known
      exact ⟨k, later mine, read⟩
  | spin old =>
      obtain ⟨k, mine⟩ := known
      exact ⟨k, later mine⟩
  | seen old v =>
      obtain ⟨k, mine, read⟩ := known
      exact ⟨k, later mine, read⟩
  | inside => exact (alone known).elim
  | leave v => exact (alone known.1).elim

/-- The store of `unlock` -/
theorem Inv.leave {v : BitVec 16} (inv : s.Inv) (owner : s.Owner c) (value : v = BitVec.ofNat 16 (s.left + 1)) :
    Inv { (s.write (setCur s.val v)).moveTo c .idle with left := s.left + 1 } := by
  obtain ⟨below, at_⟩ := List.getElem?_eq_some_iff.mp owner.2
  have split : s.drew.drop s.left = c :: s.drew.drop (s.left + 1) := by rw [List.drop_eq_getElem_cons below, at_]
  have single := inv.single
  rw [split, List.nodup_cons] at single
  refine ⟨(nxt_setCur s.val v).trans inv.nxt, (cur_setCur s.val v).trans value, inv.order, ?_, single.2,
    inv.others rfl single.1 fun d q other known => ?_⟩
  · have := owner.1
    show s.left + 1 ≤ s.entered.length ∧ s.entered.length ≤ s.left + 1 + 1
    omega
  · have absent (out : d ∉ s.drew.drop s.left) : d ∉ s.drew.drop (s.left + 1) := by
      rw [split] at out
      exact fun member => out (List.mem_cons_of_mem c member)
    have later {w : BitVec 16} {k : Nat} (read : s.Read w k) :
        Read { (s.write (setCur s.val v)).moveTo c .idle with left := s.left + 1 } w k := by
      obtain ⟨l, le, is, close⟩ := read
      exact ⟨l, Nat.le_succ_of_le le, is, close⟩
    cases q with
    | idle => exact absent known
    | linked old => exact ⟨absent known.1, fun armed => absurd armed Bool.false_ne_true⟩
    | drawn old =>
        obtain ⟨k, mine, read⟩ := known
        exact ⟨k, mine, later read⟩
    | spin old => exact known
    | seen old w =>
        obtain ⟨k, mine, read⟩ := known
        exact ⟨k, mine, later read⟩
    | inside => exact absurd (Inv.owner_unique known owner) other
    | leave w => exact absurd (Inv.owner_unique known.1 owner) other

/-- Every step keeps the invariant, and no half carries into the other. -/
theorem Inv.step [Fintype ι] (few : Fintype.card ι < 2 ^ 16) {arch : Arch} {act : ι × Op} (inv : s.Inv)
    (done : s.step arch act = some s') : s'.Inv ∧ Halves s.val s'.val := by
  obtain ⟨c, op⟩ := act
  have known := inv.knows c
  cases op with
  | xadd =>
      cases here : s.place c with
      | idle =>
          rw [here] at known
          cases arch with
          | x86 =>
              simp only [Lock.step, here, if_true, Option.some.injEq] at done
              exact done ▸ ⟨inv.draw few known (nxt_next _) (cur_next _), halves_next s.val⟩
          | aarch64 => simp [Lock.step, here] at done
      | _ => simp [Lock.step, here] at done
  | ldaxr =>
      cases here : s.place c with
      | idle =>
          rw [here] at known
          cases arch with
          | x86 => simp [Lock.step, here] at done
          | aarch64 =>
              simp only [Lock.step, here, if_true, Option.some.injEq] at done
              exact done ▸ ⟨inv.link known, .inl rfl⟩
      | _ => simp [Lock.step, here] at done
  | stxr ok =>
      cases here : s.place c with
      | linked old =>
          rw [here] at known
          cases ok with
          | true =>
              cases armed : s.monitor c with
              | true =>
                  obtain rfl := known.2 armed
                  simp only [Lock.step, here, armed, if_true, Option.some.injEq] at done
                  exact done ▸ ⟨inv.draw few known.1 (nxt_next _) (cur_next _), halves_next s.val⟩
              | false => simp [Lock.step, here, armed] at done
          | false =>
              simp only [Lock.step, here, Option.some.injEq] at done
              exact done ▸ ⟨inv.moveTo known.1, .inl rfl⟩
      | _ => cases ok <;> simp [Lock.step, here] at done
  | compare =>
      cases here : s.place c with
      | drawn old =>
          rw [here] at known
          obtain ⟨k, ticket, read⟩ := known
          simp only [Lock.step, here, Option.some.injEq] at done
          rw [← done]
          split
          · rename_i equal
            exact ⟨inv.enter ticket read ((ours_iff _ _).mp equal), .inl rfl⟩
          · exact ⟨inv.moveTo ⟨k, ticket⟩, .inl rfl⟩
      | seen old v =>
          rw [here] at known
          obtain ⟨k, ticket, read⟩ := known
          simp only [Lock.step, here, Option.some.injEq] at done
          rw [← done]
          split
          · rename_i equal
            exact ⟨inv.enter ticket read ((oursNow_iff _ _ _).mp equal), .inl rfl⟩
          · exact ⟨inv.moveTo ⟨k, ticket⟩, .inl rfl⟩
      | _ => simp [Lock.step, here] at done
  | read =>
      cases here : s.place c with
      | spin old =>
          rw [here] at known
          obtain ⟨k, ticket⟩ := known
          have drawn := (List.getElem?_eq_some_iff.mp ticket.2.1).1
          have near := inv.near few
          simp only [Lock.step, here, Option.some.injEq] at done
          exact done ▸ ⟨inv.moveTo ⟨k, ticket, s.left, Nat.le_refl _, inv.cur, by omega⟩, .inl rfl⟩
      | _ => simp [Lock.step, here] at done
  | load =>
      cases here : s.place c with
      | inside =>
          rw [here] at known
          simp only [Lock.step, here, Option.some.injEq] at done
          exact done ▸ ⟨inv.moveTo ⟨known, by rw [bump_eq, inv.cur, ofNat_succ]⟩, .inl rfl⟩
      | _ => simp [Lock.step, here] at done
  | store =>
      cases here : s.place c with
      | leave v =>
          rw [here] at known
          simp only [Lock.step, here, Option.some.injEq] at done
          exact done ▸ ⟨inv.leave known.1 known.2, halves_setCur (by rw [known.2, inv.cur, ofNat_succ])⟩
      | _ => simp [Lock.step, here] at done

/-- **The ticket lock.**  With fewer than `2^16` contenders and in any interleaving of
their accesses, at most one of them is between `lock` and the end of `unlock`, the lock
is taken in the order of the tickets, each half counts its events modulo `2^16`, and a
step that counts up one half leaves the other one as it is. -/
theorem ticket_lock (arch : Arch) [Fintype ι] (few : Fintype.card ι < 2 ^ 16) {acts : List (ι × Op)} {s : Lock ι}
    (run : runs (step arch) init acts = some s) :
    (∀ c d, s.Holds c → s.Holds d → c = d) ∧ s.entered <+: s.drew ∧
      Spinlock.nxt s.val = BitVec.ofNat 16 s.drew.length ∧ Spinlock.cur s.val = BitVec.ofNat 16 s.left ∧
      ∀ act s', s.step arch act = some s' → Halves s.val s'.val := by
  have inv : s.Inv := runs_keeps (fun _ _ _ inv done => (Inv.step few inv done).1) inv_init run
  refine ⟨fun c d first second => ?_, inv.order, inv.nxt, inv.cur, fun act s' done => (inv.step few done).2⟩
  exact Inv.owner_unique (inv.owner_of_holds first) (inv.owner_of_holds second)

/-- Two contenders on aarch64; a store exclusive fails because the other one is first. -/
theorem ticket_lock_two : ∃ s : Lock (Fin 2),
    runs (step .aarch64) init [(0, .ldaxr), (1, .ldaxr), (1, .stxr true), (0, .stxr false), (0, .ldaxr), (0, .stxr true),
      (1, .compare), (0, .compare), (1, .load), (0, .read), (1, .store), (0, .compare), (0, .read), (0, .compare)] = some s ∧
      s.drew = [1, 0] ∧ s.entered = [1, 0] ∧ s.left = 1 ∧ ∀ c d, s.Holds c → s.Holds d → c = d := by
  have outcome : (runs (step .aarch64) (init : Lock (Fin 2)) [(0, .ldaxr), (1, .ldaxr), (1, .stxr true), (0, .stxr false),
      (0, .ldaxr), (0, .stxr true), (1, .compare), (0, .compare), (1, .load), (0, .read), (1, .store), (0, .compare),
      (0, .read), (0, .compare)]).map (fun s => (s.drew, s.entered, s.left)) = some ([1, 0], [1, 0], 1) := by
    decide +kernel
  obtain ⟨s, run, values⟩ := Option.map_eq_some_iff.mp outcome
  obtain ⟨drew, rest⟩ := Prod.mk.inj values
  obtain ⟨entered, left⟩ := Prod.mk.inj rest
  exact ⟨s, run, drew, entered, left, (ticket_lock .aarch64 (by simp) run).1⟩

end Lock

end Nova.Kernel.Spinlock
