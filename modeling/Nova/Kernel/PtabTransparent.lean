/-
# Nova.Kernel.PtabTransparent — what a walk must not change, and where an update stops

A walk installs tables and splinters large leaves; no lookup may notice, the order
of a page apart.  When it is asked to make holes, it installs nothing unless it has
to splinter: without a large leaf in its way it returns the slot or finds the hole
that makes the work unnecessary, and it cannot run out of memory
(`walk_query`).  With a large leaf in its way it does allocate (`walk_splinters`).

An update runs out of memory in the walk of a round.  All rounds before it are
done, and this walk is transparent, so that a prefix of the range has its new
translation, in chunks of the order that `update` works with (`Stopped`).  That holds
of every order, also of those whose rounds go astray: their later walks find the
tables of the first one.
-/
import Nova.Kernel.PtabRefine

namespace Nova.Kernel

open Nova.Theory.Words
open Nova.Theory.Radix

set_option autoImplicit false

namespace Pagetable

variable (T : Pagetable)

/-- An empty slot above level `n` covers `v`. -/
def HoleAbove (s : State) (v : Word) (n : Nat) : Prop :=
  ∃ m q, n < m ∧ T.slotAt s v m = some q ∧ s.load q = 0#64

/-- A large leaf above level `n` covers `v`. -/
def LeafAbove (s : State) (v : Word) (n : Nat) : Prop :=
  ∃ m q, n < m ∧ T.slotAt s v m = some q ∧ T.format.kind m (s.load q) = .leaf

variable {T}

/-- No lookup notices a walk. -/
theorem Links.agrees {I : Word → Nat → Prop} (lawful : T.format.Lawful) {s s' : State} (wf : T.WF s) (exact_ : T.Exact s)
    (links : T.Links I s s') (x : Word) (ca : Cacheability) (sh : Shareability) :
    (T.lookup x ca sh s').Agrees (T.lookup x ca sh s) := by
  rw [lookup_translation lawful, lookup_translation lawful, ((links.splits lawful wf exact_).2 x).1]
  exact Lookup.agrees_of_translation _ _ _ _ _

/-! ## Where a walk ends -/

section Ends

variable (lawful : T.format.Lawful) {s : State} {v : Word} {n : Nat}

/-- The slot is there, or something else covers the address above it. -/
theorem slot_or_above : ∀ (l : Nat) (r : Slot Word entries), T.slotAt s v l = some r → n ≤ l →
    (∃ q, slotOf T.format.kind s.mem (slotIndex v) n l r = some q) ∨ T.HoleAbove s v n ∨ T.LeafAbove s v n
  | l, r, slot, le => by
      by_cases here : l = n
      · subst here
        exact Or.inl ⟨r, slotOf_self _ _ _ _⟩
      · cases kind : T.format.kind l (s.load r) with
        | hole => exact Or.inr (Or.inl ⟨l, r, by omega, slot, Format.kind_hole kind⟩)
        | leaf => exact Or.inr (Or.inr ⟨l, r, by omega, slot, kind⟩)
        | table p =>
            obtain ⟨k, rfl⟩ : ∃ k, l = k + 1 := ⟨l - 1, by omega⟩
            rcases slot_or_above k (p, slotIndex v k) (slotAt_down slot kind) (by omega) with ⟨q, below⟩ | above
            · exact Or.inl ⟨q, by rw [slotOf_table here kind]; exact below⟩
            · exact Or.inr above

/-- A search for an address below a large leaf ends in it. -/
theorem find_leafAbove (leaf : T.LeafAbove s v n) : ∃ m e, T.find s v = (m, some e) := by
  obtain ⟨m, q, -, slot, kind⟩ := leaf
  refine ⟨m, s.load q, ?_⟩
  rw [find_slot slot fun _ _ _ => rfl, treeOf_leaf _ kind]
  rfl

theorem find_holeAbove (hole : T.HoleAbove s v n) : ∃ m, n < m ∧ T.find s v = (m, none) := by
  obtain ⟨m, q, above, slot, zero⟩ := hole
  refine ⟨m, above, ?_⟩
  rw [find_slot slot fun _ _ _ => rfl, treeOf_hole _ (zero ▸ Format.kind_zero _ _)]
  rfl

variable (wf : T.WF s)
include lawful wf

/-- A level whose slot refers to a table -/
theorem next_table {l : Nat} {r : Slot Word entries} {p : Word} (slot : T.slotAt s v l = some r)
    (table : T.format.kind l (s.load r) = .table p) (e : Bool) (race : List (List (Word × Nat))) :
    T.next l r e race (s.load r) s = (.ptr p, s) := by
  have small := wf.table_small lawful slot table
  obtain ⟨ne, -, rfl⟩ := Format.kind_table_iff.mp table
  rw [next.eq_def]
  simp [ne, small]

/-- A walk passes the tables above a slot that exists. -/
theorem walkFrom_skip (e : Bool) {m : Nat} {q : Slot Word entries} (le : n ≤ m) : ∀ (l : Nat) (r : Slot Word entries),
    T.slotAt s v l = some r → slotOf T.format.kind s.mem (slotIndex v) m l r = some q →
    T.walkFrom v n e l r s = T.walkFrom v n e m q s
  | l, r, slot, reached => by
      rcases slotOf_cases reached with ⟨rfl, rfl⟩ | ⟨k, p, rfl, -, table, below⟩
      · rfl
      · have := slotOf_le below
        rw [walkFrom, if_neg (by omega), next_table lawful wf slot table]
        exact walkFrom_skip e le k _ (slotAt_down slot table) below

theorem walk_skip (e : Bool) {m : Nat} {q : Slot Word entries} (le : n ≤ m) (slot : T.slotAt s v m = some q) :
    T.walk v n e s = T.walkFrom v n e m q s :=
  walkFrom_skip lawful wf e le T.format.lev T.root (slotOf_self _ _ _ _) slot

/-- A walk to a slot that exists changes nothing. -/
theorem walk_reached (e : Bool) {q : Slot Word entries} (reached : T.slotAt s v n = some q) :
    T.walk v n e s = (.ptr q, s) := by
  rw [walk_skip lawful wf e (le_refl n) reached]
  cases n <;> simp [walkFrom]

/-- A walk that makes holes stops at an empty slot. -/
theorem walk_hole (hole : T.HoleAbove s v n) : T.walk v n false s = (.hole, s) := by
  obtain ⟨m, q, above, slot, zero⟩ := hole
  obtain ⟨k, rfl⟩ : ∃ k, m = k + 1 := ⟨m - 1, by omega⟩
  rw [walk_skip lawful wf false (by omega) slot, walkFrom, if_neg (by omega), next.eq_def]
  simp [zero]

omit lawful in
/-- The root slot holds no leaf. -/
theorem not_leafAbove_top (top : T.format.lev ≤ n + 1) : ¬ T.LeafAbove s v n := by
  rintro ⟨m, q, above, slot, leaf⟩
  have := (wf.leaf_good slot leaf).level
  omega

/-- **A walk that makes holes**: it finds a hole exactly where an empty slot covers the address, and without a large
leaf above its level it installs nothing and always has an answer. -/
theorem walk_query (exact_ : T.Exact s) (le : n ≤ T.format.lev) :
    ((T.walk v n false s).1 = .hole ↔ T.HoleAbove s v n) ∧
      (¬ T.LeafAbove s v n → (T.walk v n false s).2 = s ∧ (T.walk v n false s).1 ≠ .null) := by
  rcases slot_or_above T.format.lev T.root (slotOf_self _ _ _ _) le with ⟨q, slot⟩ | hole | leaf
  · have run := walk_reached lawful wf false slot
    refine ⟨⟨fun missed => ?_, fun hole => ?_⟩, fun _ => ?_⟩
    · rw [run] at missed
      cases missed
    · rw [walk_hole lawful wf hole] at run
      cases run
    · rw [run]
      exact ⟨rfl, nofun⟩
  · have run := walk_hole lawful wf hole
    rw [run]
    exact ⟨iff_of_true rfl hole, fun _ => ⟨rfl, nofun⟩⟩
  · refine ⟨⟨fun missed => ?_, fun hole => ?_⟩, fun none => absurd leaf none⟩
    · -- the walk is transparent, so that the leaf is still found
      obtain ⟨links, -, empty⟩ := walk_spec lawful wf (raced_anywhere s) (fun _ _ => trivial) le
        (show T.walk v n false s = ((T.walk v n false s).1, (T.walk v n false s).2) from rfl)
      obtain ⟨m, -, after⟩ := find_holeAbove (n := n) (empty missed).2
      obtain ⟨k, e, before⟩ := find_leafAbove leaf
      have same := ((links.splits lawful wf exact_).2 v).1
      rw [translation, translation, before, after] at same
      cases same
    · obtain ⟨m, -, before⟩ := find_holeAbove hole
      obtain ⟨k, e, before'⟩ := find_leafAbove leaf
      rw [before] at before'
      cases before'

end Ends

/-! ## Where an update stops -/

/-- An update that runs out of memory does so in the walk of one of its rounds, after the rounds before it. -/
theorem updateLoop_stops {l n : Nat} {a stride : Word} : ∀ (count : Nat) (v p : Word) (s s' : State),
    T.updateLoop l n a stride count v p s = (.insMem, s') → ∃ k s1, k < count ∧
      T.updateLoop l n a stride k v p s = (.success, s1) ∧
      T.walk (nth stride v k) l (a ≠ 0#64) s1 = (.null, s')
  | 0, v, p, s, s', run => by cases run
  | count + 1, v, p, s, s', run => by
      unfold updateLoop at run
      split at run
      · rename_i walked
        obtain ⟨-, rfl⟩ := Prod.mk.inj run
        exact ⟨0, s, by omega, rfl, by rw [nth_zero]; exact walked⟩
      · rename_i walked
        obtain ⟨k, s1, less, done, failed⟩ := updateLoop_stops count _ _ _ s' run
        refine ⟨k + 1, s1, by omega, ?_, by rw [nth_succ]; exact failed⟩
        rw [updateLoop, walked]
        exact done
      · rename_i walked
        obtain ⟨k, s1, less, done, failed⟩ := updateLoop_stops count _ _ _ s' run
        refine ⟨k + 1, s1, by omega, ?_, by rw [nth_succ]; exact failed⟩
        rw [updateLoop, walked]
        exact done

/-- The first `k` chunks of order `o` of the range at `v` have their new translation, every other address has its old
one. -/
structure Stopped (T : Pagetable) (v p : Word) (o : Nat) (pm : Permissions) (ca : Cacheability) (sh : Shareability)
    (k : Nat) (s s' : State) : Prop where
  done : ∀ x, T.Inside x → v.toNat ≤ x.toNat → x.toNat < v.toNat + k * 2 ^ (o + pageBits) →
    T.translation s' x = T.target v p pm ca sh x
  rest : ∀ x, T.Inside x → ¬ (v.toNat ≤ x.toNat ∧ x.toNat < v.toNat + k * 2 ^ (o + pageBits)) →
    T.translation s' x = T.translation s x

/-- Nothing but a walk: no chunk is done. -/
theorem Stopped.none {v p : Word} {o : Nat} {pm : Permissions} {ca : Cacheability} {sh : Shareability} {s s' : State}
    (splits : T.Splits s s') : T.Stopped v p o pm ca sh 0 s s' := by
  refine ⟨fun x _ low high => ?_, fun x _ _ => (splits x).1⟩
  rw [Nat.zero_mul] at high
  omega

section Stops

variable (lawful : T.format.Lawful) {s s' : State} (wf : T.WF s) (exact_ : T.Exact s) {v p : Word} {ord lim : Nat}
  {pm : Permissions} {ca : Cacheability} {sh : Shareability}
include lawful wf exact_

/-- The orders that are handled stop after a number of chunks. -/
theorem update_stops (request : T.Request v p ord) (handles : T.format.Handles lim ord)
    (run : T.update lim v p ord pm ca sh s = (.insMem, s')) :
    ∃ k, k < bit32 (ord - min ord lim) ∧ T.Stopped v p (min ord lim) pm ca sh k s s' := by
  obtain ⟨k, s1, less, made, failed⟩ := updateLoop_stops _ v p s s' run
  have rounds := fun i (hi : i < bit32 (ord - min ord lim)) => rounds_good lawful request handles hi pm ca sh
  have effect := updateLoop_spec lawful handles.2.le k v p s _ s1 wf (fun i hi => (rounds i (by omega)).1) made
  have stable : ∀ i < k, _ := fun i hi => (rounds i (by omega)).2.1
  have exact1 := effect.exact_ exact_ stable
  obtain ⟨links, -, -⟩ := walk_spec lawful effect.wf (raced_anywhere s1) (fun _ _ => trivial) handles.2.le failed
  have splits := (links.splits lawful effect.wf exact1).2
  refine ⟨k, less, fun x hx low high => ?_, fun x hx out => ?_⟩
  · obtain ⟨i, hi, covered, unique⟩ := round_of lawful request handles less.le low high
    have written := (effect.covered exact_ stable x hx i hi covered unique).1 rfl
    rw [(rounds i (by omega)).2.2 x covered] at written
    exact (splits x).1.trans written
  · refine (splits x).1.trans (effect.outside exact_ stable x hx fun i hi covered => out ?_).1
    obtain ⟨low, high⟩ := (round_covered lawful request handles (by omega) x).mp covered
    have inside : i * 2 ^ (min ord lim + pageBits) + 2 ^ (min ord lim + pageBits) ≤
        k * 2 ^ (min ord lim + pageBits) := by
      rw [← Nat.succ_mul]
      exact Nat.mul_le_mul_right _ hi
    omega

end Stops

/-- With 4 KB leaves only, an order of 32 and more wraps around. -/
theorem update_wraps (v p : Word) (ord : Nat) (pm : Permissions) (ca : Cacheability) (sh : Shareability) (s : State) :
    T.update 0 v p ord pm ca sh s = T.update 0 v p (ord % 32) pm ca sh s := by
  simp [update, bit32]

/-- The entry of a round of one slot -/
theorem Round.first {l : Nat} {a v p : Word} (round : T.Round l 1 a v p) :
    T.Writable l (if a ≠ 0#64 then p ||| a else 0#64) := by
  have first := round.writable 0 (by omega)
  unfold roundEntry at first
  simpa using first

/-- Rounds of one slot, all of which exist, do not run out of memory. -/
theorem updateLoop_present (lawful : T.format.Lawful) {l : Nat} {a stride : Word} : ∀ (count : Nat) (v p : Word)
    (s : State), T.WF s → (∀ i < count, T.Round l 1 a (nth stride v i) (nth stride p i)) →
      (∀ i < count, ∃ q, T.slotAt s (nth stride v i) l = some q) →
      (T.updateLoop l 1 a stride count v p s).1 = .success
  | 0, v, p, s, wf, rounds, slots => rfl
  | count + 1, v, p, s, wf, rounds, slots => by
      obtain ⟨r, slot⟩ := slots 0 (by omega)
      rw [nth_zero] at slot
      have now : T.Round l 1 a v p := by simpa only [nth_zero] using rounds 0 (by omega)
      have writable := now.first
      rw [updateLoop, walk_reached lawful wf _ slot]
      refine updateLoop_present lawful count _ _ _ (wf_exchange wf slot writable lawful)
        (fun i hi => by rw [← nth_succ, ← nth_succ]; exact rounds (i + 1) (by omega)) fun i hi => ?_
      obtain ⟨q, later⟩ := slots (i + 1) (by omega)
      rw [nth_succ] at later
      exact ⟨q, slotAt_exchange wf slot writable (le_refl l) later⟩

theorem Request.smaller {v p : Word} {ord ord' : Nat} (request : T.Request v p ord) (le : ord' ≤ ord) :
    T.Request v p ord' := by
  have unit : 2 ^ (ord' + pageBits) ∣ 2 ^ (ord + pageBits) := Nat.pow_dvd_pow 2 (by omega)
  have size : 2 ^ (ord' + pageBits) ≤ 2 ^ (ord + pageBits) := Nat.le_of_dvd (Nat.two_pow_pos _) unit
  have vfits := request.v_fits
  have pfits := request.p_fits
  exact ⟨Nat.mod_eq_zero_of_dvd (unit.trans (Nat.dvd_of_mod_eq_zero request.v_aligned)), by omega,
    Nat.mod_eq_zero_of_dvd (unit.trans (Nat.dvd_of_mod_eq_zero request.p_aligned)), by omega⟩

/-- With the default limit, an order beyond it stops in the first round or not at all: the slots of level 3 lie in
one table. -/
theorem far_stops (lawful : T.format.Lawful) (four : T.format.lev = 4) {s s' : State} (wf : T.WF s)
    (exact_ : T.Exact s) {v p : Word} {ord : Nat} {pm : Permissions} {ca : Cacheability} {sh : Shareability}
    (request : T.Request v p ord) (far : 27 < ord)
    (run : T.update 27 v p ord pm ca sh s = (.insMem, s')) : T.Stopped v p 27 pm ca sh 0 s s' := by
  have clamp : min ord (3 * bpl) = 27 := by simp only [bpl]; omega
  have rounds := fun i (hi : i < bit32 (ord - min ord (3 * bpl))) =>
    rounds_keep lawful request (le_refl 3) (by omega) pm ca sh (fun _ => by rw [clamp, four]; decide) hi
  have limit : min ord 27 = 27 := by omega
  unfold update at run
  simp only [limit] at run
  rw [clamp] at rounds
  simp only [show 27 / bpl = 3 from rfl, show bit32 (27 % bpl) = 1 from rfl] at run rounds
  generalize T.format.pageAttr 3 pm ca sh = a at run rounds
  generalize BitVec.ofNat 64 (bit32 (27 + pageBits)) = stride at run rounds
  generalize bit32 (ord - 27) = count at run rounds
  have le : 3 ≤ T.format.lev := by omega
  by_cases zap : a = 0#64
  · -- holes are made without memory
    obtain ⟨k, s1, less, made, failed⟩ := updateLoop_stops count v p s s' run
    have effect := updateLoop_spec lawful le k v p s _ s1 wf (fun i hi => rounds i (by omega)) made
    have exact1 := effect.exact_ exact_ fun i _ ne => absurd zap ne
    have answered := ((walk_query (v := nth stride v k) lawful effect.wf exact1 le).2
      (not_leafAbove_top effect.wf (by omega))).2
    simp only [zap, ne_eq, not_true_eq_false, decide_false] at failed
    exact absurd (congrArg Prod.fst failed) answered
  · cases count with
    | zero => cases run
    | succ count =>
        unfold updateLoop at run
        split at run
        · rename_i walked
          obtain ⟨-, rfl⟩ := Prod.mk.inj run
          obtain ⟨links, -, -⟩ := walk_spec lawful wf (raced_anywhere s) (fun _ _ => trivial) le walked
          exact .none (links.splits lawful wf exact_).2
        · rename_i walked
          obtain ⟨-, -, hole⟩ := walk_spec lawful wf (raced_anywhere s) (fun _ _ => trivial) le walked
          exact absurd (hole rfl).1 (by simp [zap])
        · rename_i r s1 walked
          obtain ⟨links, found, -⟩ := walk_spec lawful wf (raced_anywhere s) (fun _ _ => trivial) le walked
          have slot := found r rfl
          have now : T.Round 3 1 a v p := by simpa only [nth_zero] using rounds 0 (by omega)
          have writable := now.first
          have wf1 := links.wf lawful wf
          have done := updateLoop_present lawful (a := a) count (v + stride) (p + stride)
            (T.exchange 3 r (if a ≠ 0#64 then p ||| a else 0#64) s1) (wf_exchange wf1 slot writable lawful)
            (fun i hi => by rw [← nth_succ, ← nth_succ]; exact rounds (i + 1) (by omega))
            fun i hi => ⟨_, slotAt_exchange wf1 slot writable (le_refl 3)
              (slotOf_sibling slot (by omega) fun k low high => by omega).1⟩
          rw [show T.updateLoop 3 1 a stride count (v + stride) (p + stride) (T.exchange 3 r _ s1) = _ from run] at done
          cases done

/-- A walk to the level of the root needs no memory. -/
theorem walk_root (v : Word) (e : Bool) (s : State) : T.walk v T.format.lev e s = (.ptr T.root, s) := by
  unfold walk
  generalize T.format.lev = l
  cases l <;> simp [walkFrom]

end Pagetable

/-- **Where an update stops**, whatever its order. -/
theorem update_partial (fmt : Fmt) {T : Pagetable} (format : T.format = fmt.format) {s s' : State} (wf : T.WF s)
    (exact_ : T.Exact s) (args : List Nat) {v p : Word} {ord : Nat} {pm : Permissions} {ca : Cacheability}
    {sh : Shareability} (request : T.Request v p ord)
    (run : T.update (fmt.format.limit args) v p ord pm ca sh s = (.insMem, s')) :
    ∃ k, k < 2 ^ (ord - min ord (fmt.format.limit args)) ∧
      T.Stopped v p (min ord (fmt.format.limit args)) pm ca sh k s s' := by
  have lawful : T.format.Lawful := format ▸ fmt.lawful
  obtain ⟨j, hj, limit⟩ := limit_cases fmt.format args
  rw [fmt.max_eq] at hj
  rw [limit] at run ⊢
  have width : ord ≤ T.format.lev * bpl := by
    have := (Nat.pow_le_pow_iff_right (by decide)).mp ((Nat.le_add_left _ _).trans request.v_fits)
    omega
  by_cases handles : T.format.Handles (j * bpl) ord
  · obtain ⟨k, less, stopped⟩ := Pagetable.update_stops lawful wf exact_ request handles run
    exact ⟨k, less.trans_le (Pagetable.bit32_le _), stopped⟩
  · simp only [Format.Handles, bpl, pageBits] at handles width
    rcases fmt.four_or_npt with four | ⟨xnx, rfl⟩
    · rw [← format] at four
      rw [four] at handles width
      obtain rfl | rfl : j = 3 ∨ j = 0 := by omega
      · have far : 27 < ord := by omega
        have clamp : min ord (3 * bpl) = 27 := by simp only [bpl]; omega
        rw [clamp]
        exact ⟨0, Nat.two_pow_pos _, Pagetable.far_stops lawful four wf exact_ request far run⟩
      · -- fewer rounds than the range has pages
        rw [show 0 * bpl = 0 from rfl] at run ⊢
        rw [Pagetable.update_wraps] at run
        have small : T.format.Handles 0 (ord % 32) := by
          simp only [Format.Handles, bpl, pageBits, four]
          omega
        obtain ⟨k, less, stopped⟩ := Pagetable.update_stops lawful wf exact_
          (request.smaller (Nat.mod_le ord 32)) small run
        simp only [Nat.min_zero, Nat.sub_zero] at less stopped ⊢
        exact ⟨k, less.trans_le ((Pagetable.bit32_le _).trans (Nat.pow_le_pow_right (by decide) (Nat.mod_le ord 32))),
          stopped⟩
    · -- the level of the slots is that of the root
      have three : T.format.lev = 3 := by rw [format]; rfl
      rw [three] at handles width
      obtain ⟨rfl, rfl⟩ : j = 3 ∧ ord = 27 := by omega
      obtain ⟨k, s1, -, -, failed⟩ := Pagetable.updateLoop_stops _ v p s s' run
      rw [show min 27 (3 * bpl) / bpl = T.format.lev by rw [three]; rfl, Pagetable.walk_root] at failed
      cases failed

/-- **Walks are transparent, and an update that runs out of memory stops at a chunk.**  For every well-formed page
table of every format, all addresses, levels and answers of the allocator:

* after a walk every lookup returns what it returned before, the order apart;
* a walk that makes holes returns the hole sentinel exactly if an empty slot above its level covers the address;
  unless a large leaf does, it installs nothing and does not run out of memory;
* an update that returns `INS_MEM` has translated a prefix of its range, in chunks of the clamped order, and has left
  every other address as it was. -/
theorem walk_transparent (fmt : Fmt) {T : Pagetable} (format : T.format = fmt.format) {s : State} (wf : T.WF s)
    (exact_ : T.Exact s) :
    (∀ v n e, n ≤ T.format.lev → T.WF (T.walk v n e s).2 ∧ T.Exact (T.walk v n e s).2 ∧
      ∀ x ca sh, (T.lookup x ca sh (T.walk v n e s).2).Agrees (T.lookup x ca sh s)) ∧
    (∀ v n, n ≤ T.format.lev → ((T.walk v n false s).1 = .hole ↔ T.HoleAbove s v n) ∧
      (¬ T.LeafAbove s v n → (T.walk v n false s).2 = s ∧ (T.walk v n false s).1 ≠ .null)) ∧
    ∀ args v p ord pm ca sh s', T.Request v p ord →
      T.update (fmt.format.limit args) v p ord pm ca sh s = (.insMem, s') →
      ∃ k, k < 2 ^ (ord - min ord (fmt.format.limit args)) ∧ ∀ x, T.Inside x → ∀ ca' sh',
        (v.toNat ≤ x.toNat ∧ x.toNat < v.toNat + k * 2 ^ (min ord (fmt.format.limit args) + pageBits) →
          (T.lookup x ca' sh' s').Agrees (.ofTranslation 0 ca' sh' (T.target v p pm ca sh x))) ∧
        (¬ (v.toNat ≤ x.toNat ∧ x.toNat < v.toNat + k * 2 ^ (min ord (fmt.format.limit args) + pageBits)) →
          (T.lookup x ca' sh' s').Agrees (T.lookup x ca' sh' s)) := by
  have lawful : T.format.Lawful := format ▸ fmt.lawful
  refine ⟨fun v n e le => ?_, fun v n le => Pagetable.walk_query lawful wf exact_ le, ?_⟩
  · obtain ⟨links, -, -⟩ := Pagetable.walk_spec lawful wf (Pagetable.raced_anywhere s) (fun _ _ => trivial) le
      (show T.walk v n e s = ((T.walk v n e s).1, (T.walk v n e s).2) from rfl)
    exact ⟨links.wf lawful wf, (links.splits lawful wf exact_).1, links.agrees lawful wf exact_⟩
  · intro args v p ord pm ca sh s' request run
    obtain ⟨k, less, stopped⟩ := update_partial fmt format wf exact_ args request run
    refine ⟨k, less, fun x hx ca' sh' => ⟨fun inside => ?_, fun outside => ?_⟩⟩
    · rw [Pagetable.lookup_translation lawful, stopped.done x hx inside.1 inside.2]
      exact Pagetable.Lookup.agrees_of_translation _ _ _ _ _
    · rw [Pagetable.lookup_translation lawful, Pagetable.lookup_translation lawful, stopped.rest x hx outside]
      exact Pagetable.Lookup.agrees_of_translation _ _ _ _ _

/-- A leaf of 512 GB, and one page for a table -/
def farFed : State := { farState hptX86 with supply := [0x3000#64] }

/-- A walk that makes holes splinters the leaf, which no lookup sees, and finds the hole beside it; an update of one
page gets no second table and leaves every translation as it was. -/
theorem walk_transparent_far :
    ((farTable hptX86).walk farAddr 2 false farFed).2.obtained = [0x3000#64] ∧
      (∀ x ca sh, ((farTable hptX86).lookup x ca sh ((farTable hptX86).walk farAddr 2 false farFed).2).Agrees
        ((farTable hptX86).lookup x ca sh farFed)) ∧
      (farTable hptX86).HoleAbove farFed 0#64 2 ∧
      ∃ s', (farTable hptX86).update (Fmt.hptX86.format.limit []) farAddr 0#64 0 { r := true } 0#3 0#2 farFed =
          (.insMem, s') ∧ s'.obtained = [0x3000#64] ∧ ∀ x, (farTable hptX86).Inside x → ∀ ca sh,
            ((farTable hptX86).lookup x ca sh s').Agrees ((farTable hptX86).lookup x ca sh farFed) := by
  obtain ⟨far, exact_⟩ := far_wf hptX86_lawful rfl
  have wf : (farTable hptX86).WF farFed :=
    ⟨far.nodup, far.owned, far.root_live, far.root_apart, far.leaves, far.root_small⟩
  obtain ⟨keeps, finds, updates⟩ := walk_transparent .hptX86 (T := farTable hptX86) rfl wf exact_
  refine ⟨by decide +kernel, (keeps farAddr 2 false (by decide)).2.2, ?_, ?_⟩
  · exact (finds 0#64 2 (by decide)).1.mp (by decide +kernel)
  · have request : (farTable hptX86).Request farAddr 0#64 0 := ⟨by decide, by decide, by decide, by decide⟩
    have run : (farTable hptX86).update (Fmt.hptX86.format.limit []) farAddr 0#64 0 { r := true } 0#3 0#2 farFed =
        (.insMem, ((farTable hptX86).update (Fmt.hptX86.format.limit []) farAddr 0#64 0 { r := true } 0#3 0#2 farFed).2) :=
      Prod.ext (by decide +kernel) rfl
    obtain ⟨k, less, agrees⟩ := updates [] farAddr 0#64 0 _ _ _ _ request run
    obtain rfl : k = 0 := by simpa using less
    refine ⟨_, run, by decide +kernel, fun x inside ca sh => (agrees x inside ca sh).2 (by omega)⟩

/-- A walk that makes holes meets a leaf of 512 GB: without memory it fails, and with memory it installs a table. -/
theorem walk_splinters :
    (farTable hptX86).WF (farState hptX86) ∧ (farTable hptX86).Exact (farState hptX86) ∧
      ((farTable hptX86).walk farAddr 2 false (farState hptX86)).1 = .null ∧
      ((farTable hptX86).walk farAddr 2 false { farState hptX86 with supply := [0x3000#64] }).2.obtained =
        [0x3000#64] := by
  obtain ⟨wf, exact_⟩ := far_wf hptX86_lawful rfl
  exact ⟨wf, exact_, by decide +kernel, by decide +kernel⟩

end Nova.Kernel
