/-
# Nova.Theory.Radix — radix trees kept in a memory of fixed-size tables

A radix tree of fanout `n` lives in a memory that maps a table identity and a
slot index to a word.  What a word stands for at its level is a parameter
(`kind`): nothing, a leaf, or a reference to the table of the next level.
`treeOf` reads the tree off the memory.  Everything that a slot write does to
the tree is `treeOf_write`: on a tree without shared tables it is `modify` at
that slot, and `find_modify_same`/`find_modify_other` say what a search sees
afterwards.  `pages_modify` accounts for the tables that enter and leave.

Nothing here knows what the words encode.
-/
import Nova.Theory.Lists
import Mathlib.Data.List.Pairwise
import Mathlib.Logic.Function.Basic

namespace Nova.Theory.Radix

open Nova.Theory.Lists

set_option autoImplicit false

/-- What a slot word stands for. -/
inductive Kind (P : Type) where
  | hole
  | leaf
  | table (p : P)
  deriving DecidableEq

/-- Words by table and slot index. -/
abbrev Memory (P W : Type) (n : Nat) := P → Fin n → W

/-- A slot: its table and its index there. -/
abbrev Slot (P : Type) (n : Nat) := P × Fin n

/-- A radix tree, with the identity of every table. Levels are positional. -/
inductive Tree (P W : Type) (n : Nat) where
  | hole
  | leaf (w : W)
  | table (p : P) (sub : Fin n → Tree P W n)

section Memory

variable {P W : Type} {n : Nat} [DecidableEq P]

/-- Store one word. -/
def write (mem : Memory P W n) (r : Slot P n) (w : W) : Memory P W n :=
  Function.update mem r.1 (Function.update (mem r.1) r.2 w)

@[simp] theorem write_self (mem : Memory P W n) (r : Slot P n) (w : W) :
    write mem r w r.1 r.2 = w := by
  simp [write]

theorem write_ne (mem : Memory P W n) (r : Slot P n) (w : W) {p : P} {i : Fin n}
    (ne : (p, i) ≠ r) : write mem r w p i = mem p i := by
  unfold write
  by_cases same : p = r.1
  · subst same
    have other : i ≠ r.2 := fun e => ne (Prod.ext rfl e)
    simp [other]
  · rw [Function.update_of_ne same]

theorem write_same (mem : Memory P W n) (r : Slot P n) : write mem r (mem r.1 r.2) = mem := by
  simp [write]

theorem write_page_ne (mem : Memory P W n) (r : Slot P n) (w : W) {p : P} (ne : p ≠ r.1) :
    write mem r w p = mem p := by
  unfold write
  rw [Function.update_of_ne ne]

end Memory

namespace Tree

variable {P W : Type} {n : Nat}

/-- The tables of a tree, each as often as it is referenced. -/
def pages : Tree P W n → List P
  | .hole => []
  | .leaf _ => []
  | .table p sub => p :: (List.finRange n).flatMap fun i => (sub i).pages

/-- Search along `path` (the index to take in a table whose slots have the given
level): the level where the search ends, and the leaf found there. -/
def find (path : Nat → Fin n) : Nat → Tree P W n → Nat × Option W
  | l, .hole => (l, none)
  | l, .leaf w => (l, some w)
  | l, .table _ sub => find path (l - 1) (sub (path (l - 1)))

/-- Put `new` in place of the slot of level `m` along `path`. -/
def modify (path : Nat → Fin n) (m : Nat) (new : Tree P W n) : Nat → Tree P W n → Tree P W n
  | l, .hole => if l = m then new else .hole
  | l, .leaf w => if l = m then new else .leaf w
  | l, .table p sub =>
      if l = m then new
      else .table p (Function.update sub (path (l - 1)) (modify path m new (l - 1) (sub (path (l - 1)))))

/-- The slot of level `m` along `path` exists: every slot above it is a table. -/
def Reaches (path : Nat → Fin n) (m : Nat) : Nat → Tree P W n → Prop
  | l, .hole => l = m
  | l, .leaf _ => l = m
  | l, .table _ sub => l = m ∨ Reaches path m (l - 1) (sub (path (l - 1)))

/-- What hangs in the slot of level `m` along `path`. -/
def subAt (path : Nat → Fin n) (m : Nat) : Nat → Tree P W n → Tree P W n
  | _, .hole => .hole
  | _, .leaf w => .leaf w
  | l, .table p sub => if l = m then .table p sub else subAt path m (l - 1) (sub (path (l - 1)))

/-- No table whose slots have level 0. -/
def Bottomless : Nat → Tree P W n → Prop
  | _, .hole => True
  | _, .leaf _ => True
  | l, .table _ sub => l ≠ 1 ∧ ∀ i, Bottomless (l - 1) (sub i)

/-- The slot of level `m` along `path`, coming from the slot `q` that holds the tree. -/
def slot (path : Nat → Fin n) (m : Nat) : Nat → Slot P n → Tree P W n → Option (Slot P n)
  | l, q, .hole => if l = m then some q else none
  | l, q, .leaf _ => if l = m then some q else none
  | l, q, .table p sub =>
      if l = m then some q else slot path m (l - 1) (p, path (l - 1)) (sub (path (l - 1)))

/-- Every leaf satisfies `Q` at its level. -/
def AllLeaves (Q : Nat → W → Prop) : Nat → Tree P W n → Prop
  | _, .hole => True
  | l, .leaf w => Q l w
  | l, .table _ sub => ∀ i, AllLeaves Q (l - 1) (sub i)

theorem modify_self (path : Nat → Fin n) (m : Nat) (new t : Tree P W n) :
    modify path m new m t = new := by
  cases t <;> simp [modify]

theorem subAt_self (path : Nat → Fin n) (m : Nat) (t : Tree P W n) : subAt path m m t = t := by
  cases t <;> simp [subAt]

theorem slot_self (path : Nat → Fin n) (m : Nat) (q : Slot P n) (t : Tree P W n) :
    slot path m m q t = some q := by
  cases t <;> simp [slot]

theorem modify_table_ne (path : Nat → Fin n) {m l : Nat} (new : Tree P W n) (p : P)
    (sub : Fin n → Tree P W n) (ne : l ≠ m) :
    modify path m new l (.table p sub) =
      .table p (Function.update sub (path (l - 1))
        (modify path m new (l - 1) (sub (path (l - 1))))) := by
  simp [modify, ne]

theorem reaches_table_ne {path : Nat → Fin n} {m l : Nat} {p : P} {sub : Fin n → Tree P W n}
    (ne : l ≠ m) (reaches : Reaches path m l (.table p sub)) :
    Reaches path m (l - 1) (sub (path (l - 1))) := by
  rcases reaches with same | below
  · exact absurd same ne
  · exact below

theorem allLeaves_mono {Q R : Nat → W → Prop} (imp : ∀ l w, Q l w → R l w) :
    ∀ (l : Nat) (t : Tree P W n), AllLeaves Q l t → AllLeaves R l t
  | _, .hole, _ => trivial
  | l, .leaf w, h => imp l w h
  | l, .table _ sub, h => fun i => allLeaves_mono imp (l - 1) (sub i) (h i)

theorem allLeaves_modify {Q : Nat → W → Prop} (path : Nat → Fin n) (m : Nat) {new : Tree P W n}
    (good : AllLeaves Q m new) :
    ∀ (l : Nat) (t : Tree P W n), AllLeaves Q l t → AllLeaves Q l (modify path m new l t)
  | l, .hole, h => by
      simp only [modify]
      split
      · rename_i same; exact same ▸ good
      · exact h
  | l, .leaf w, h => by
      simp only [modify]
      split
      · rename_i same; exact same ▸ good
      · exact h
  | l, .table p sub, h => by
      simp only [modify]
      split
      · rename_i same; exact same ▸ good
      · intro i
        by_cases here : i = path (l - 1)
        · subst here
          simpa using allLeaves_modify path m good (l - 1) _ (h _)
        · simpa [here] using h i

/-- A leaf that a search finds satisfies what every leaf satisfies. -/
theorem find_allLeaves {Q : Nat → W → Prop} (path : Nat → Fin n) {k : Nat} {w : W} :
    ∀ (l : Nat) (t : Tree P W n), AllLeaves Q l t → find path l t = (k, some w) → Q k w
  | l, .hole, _, found => by simp [find] at found
  | l, .leaf w', h, found => by
      simp only [find, Prod.mk.injEq, Option.some.injEq] at found
      obtain ⟨rfl, rfl⟩ := found
      exact h
  | l, .table _ sub, h, found => find_allLeaves path (l - 1) _ (h _) found

theorem find_level_le (path : Nat → Fin n) :
    ∀ (l : Nat) (t : Tree P W n), (find path l t).1 ≤ l
  | l, .hole => le_refl l
  | l, .leaf _ => le_refl l
  | l, .table _ _ => (find_level_le path (l - 1) _).trans (Nat.sub_le l 1)

/-- A search along indices that agree with `path` from level `m` up goes through
the slot that was replaced. -/
theorem find_modify_same {path path' : Nat → Fin n} {m : Nat} (new : Tree P W n) :
    ∀ (l : Nat) (t : Tree P W n), Reaches path m l t →
      (∀ k, m ≤ k → k < l → path' k = path k) → m ≤ l →
      find path' l (modify path m new l t) = find path' m new
  | l, .hole, reaches, _, _ => by
      have same : l = m := reaches
      subst same; rw [modify_self]
  | l, .leaf w, reaches, _, _ => by
      have same : l = m := reaches
      subst same; rw [modify_self]
  | l, .table p sub, reaches, agree, le => by
      by_cases same : l = m
      · subst same; rw [modify_self]
      · rw [modify_table_ne path new p sub same, find,
          agree (l - 1) (by omega) (by omega), Function.update_self]
        exact find_modify_same new (l - 1) _ (reaches_table_ne same reaches)
          (fun k hk hl => agree k hk (by omega)) (by omega)

/-- A search that leaves `path` above the replaced slot does not see it. -/
theorem find_modify_other {path path' : Nat → Fin n} {m : Nat} (new : Tree P W n) :
    ∀ (l : Nat) (t : Tree P W n), (∃ k, m ≤ k ∧ k < l ∧ path' k ≠ path k) →
      find path' l (modify path m new l t) = find path' l t
  | l, .hole, ⟨k, hm, hl, _⟩ => by simp [modify, show l ≠ m by omega]
  | l, .leaf w, ⟨k, hm, hl, _⟩ => by simp [modify, show l ≠ m by omega]
  | l, .table p sub, ⟨k, hm, hl, differ⟩ => by
      rw [modify_table_ne path new p sub (show l ≠ m by omega), find, find]
      by_cases here : path' (l - 1) = path (l - 1)
      · rw [here, Function.update_self]
        have below : k ≠ l - 1 := fun e => differ (e ▸ here)
        exact find_modify_other new (l - 1) _ ⟨k, hm, by omega, differ⟩
      · rw [Function.update_of_ne here]

/-- A search that agrees with `path` from level `m` up continues in the slot there. -/
theorem find_subAt {path path' : Nat → Fin n} {m : Nat} :
    ∀ (l : Nat) (t : Tree P W n), Reaches path m l t →
      (∀ k, m ≤ k → k < l → path' k = path k) → m ≤ l →
      find path' l t = find path' m (subAt path m l t)
  | l, .hole, reaches, _, _ => by
      have same : l = m := reaches
      subst same; rw [subAt_self]
  | l, .leaf w, reaches, _, _ => by
      have same : l = m := reaches
      subst same; rw [subAt_self]
  | l, .table p sub, reaches, agree, le => by
      by_cases same : l = m
      · subst same; rw [subAt_self]
      · rw [find, agree (l - 1) (by omega) (by omega), subAt, if_neg same]
        exact find_subAt (l - 1) _ (reaches_table_ne same reaches)
          (fun k hk hl => agree k hk (by omega)) (by omega)

theorem allLeaves_subAt {Q : Nat → W → Prop} {path : Nat → Fin n} {m : Nat} :
    ∀ (l : Nat) (t : Tree P W n), Reaches path m l t → AllLeaves Q l t →
      AllLeaves Q m (subAt path m l t)
  | l, .hole, reaches, h => by
      have same : l = m := reaches
      subst same; exact h
  | l, .leaf w, reaches, h => by
      have same : l = m := reaches
      subst same; exact h
  | l, .table p sub, reaches, h => by
      by_cases same : l = m
      · subst same; rw [subAt_self]; exact h
      · rw [subAt, if_neg same]
        exact allLeaves_subAt (l - 1) _ (reaches_table_ne same reaches) (h _)

/-- Replacing what is not a table takes no slot away. -/
theorem slot_modify {path path' : Nat → Fin n} {m m' : Nat} (new : Tree P W n) {r : Slot P n} :
    ∀ (l : Nat) (q : Slot P n) (t : Tree P W n), slot path m l q t = some r →
      Reaches path' m' l t → (∀ p sub, subAt path' m' l t ≠ .table p sub) →
      slot path m l q (modify path' m' new l t) = some r
  | l, q, .hole, found, _, _ => by
      by_cases same : l = m
      · subst same; rw [slot_self] at found ⊢; exact found
      · simp [slot, same] at found
  | l, q, .leaf w, found, _, _ => by
      by_cases same : l = m
      · subst same; rw [slot_self] at found ⊢; exact found
      · simp [slot, same] at found
  | l, q, .table p sub, found, reaches, bare => by
      by_cases same : l = m
      · subst same; rw [slot_self] at found ⊢; exact found
      · have above : l ≠ m' := by
          rintro rfl
          exact bare p sub (subAt_self path' l _)
        rw [modify_table_ne path' new p sub above, slot, if_neg same]
        rw [slot, if_neg same] at found
        by_cases here : path (l - 1) = path' (l - 1)
        · rw [here, Function.update_self]
          rw [here] at found
          refine slot_modify new (l - 1) _ _ found (reaches_table_ne above reaches) fun p' sub' => ?_
          have := bare p' sub'
          rwa [subAt, if_neg above] at this
        · rw [Function.update_of_ne here]
          exact found

theorem slot_le {path : Nat → Fin n} {m : Nat} {r : Slot P n} :
    ∀ (l : Nat) (q : Slot P n) (t : Tree P W n), slot path m l q t = some r → m ≤ l
  | l, q, .hole, found => by
      by_cases same : l = m
      · omega
      · simp [slot, same] at found
  | l, q, .leaf w, found => by
      by_cases same : l = m
      · omega
      · simp [slot, same] at found
  | l, q, .table p sub, found => by
      by_cases same : l = m
      · omega
      · rw [slot, if_neg same] at found
        have := slot_le (l - 1) _ _ found
        omega

/-- Replacing something leaves the slots of its level and above. -/
theorem slot_modify_above {path path' : Nat → Fin n} {m m' : Nat} (new : Tree P W n) {r : Slot P n}
    (above : m' ≤ m) :
    ∀ (l : Nat) (q : Slot P n) (t : Tree P W n), slot path m l q t = some r →
      slot path m l q (modify path' m' new l t) = some r
  | l, q, .hole, found => by
      by_cases same : l = m
      · subst same; rw [slot_self] at found ⊢; exact found
      · simp [slot, same] at found
  | l, q, .leaf w, found => by
      by_cases same : l = m
      · subst same; rw [slot_self] at found ⊢; exact found
      · simp [slot, same] at found
  | l, q, .table p sub, found => by
      by_cases same : l = m
      · subst same; rw [slot_self] at found ⊢; exact found
      · have := slot_le l q _ found
        rw [modify_table_ne path' new p sub (show l ≠ m' by omega), slot, if_neg same]
        rw [slot, if_neg same] at found
        by_cases here : path (l - 1) = path' (l - 1)
        · rw [here, Function.update_self]
          rw [here] at found
          exact slot_modify_above new above (l - 1) _ _ found
        · rw [Function.update_of_ne here]
          exact found

/-- **Table accounting of one slot write**: the tables of the old subtree go, the
tables of the new one come, the rest stays. -/
theorem pages_modify (path : Nat → Fin n) (m : Nat) :
    ∀ (l : Nat) (t : Tree P W n), Reaches path m l t →
      ∃ rest, t.pages.Perm ((subAt path m l t).pages ++ rest) ∧
        ∀ new, (modify path m new l t).pages.Perm (new.pages ++ rest)
  | l, .hole, reaches => by
      have same : l = m := reaches
      subst same
      exact ⟨[], by simp [subAt, pages], fun new => by simp [modify_self]⟩
  | l, .leaf w, reaches => by
      have same : l = m := reaches
      subst same
      exact ⟨[], by simp [subAt, pages], fun new => by simp [modify_self]⟩
  | l, .table p sub, reaches => by
      by_cases same : l = m
      · subst same
        exact ⟨[], by simp [subAt], fun new => by simp [modify_self]⟩
      · obtain ⟨rest, before, after⟩ :=
          pages_modify path m (l - 1) _ (reaches_table_ne same reaches)
        refine ⟨rest ++ p :: ((List.finRange n).erase (path (l - 1))).flatMap fun i => (sub i).pages,
          ?_, fun new => ?_⟩
        · have row := flatMap_perm pages sub (path (l - 1))
          simp only [subAt, if_neg same, pages]
          refine ((row.trans (before.append_right _)).cons p).trans ?_
          rw [List.append_assoc, ← List.append_assoc _ rest]
          exact List.perm_middle.symm.trans (by rw [List.append_assoc])
        · rw [modify_table_ne path new p sub same, pages]
          refine (((flatMap_update_perm pages sub _ _).trans ((after new).append_right _)).cons p).trans ?_
          rw [← List.append_assoc]
          exact List.perm_middle.symm.trans (by rw [List.append_assoc])

end Tree

/-! ## Reading the tree off the memory -/

section TreeOf

variable {P W : Type} {n : Nat}
variable (kind : Nat → W → Kind P)

/-- The tree below the word `w` in a slot of level `l`. -/
def treeOf (mem : Memory P W n) : Nat → W → Tree P W n
  | 0, w =>
      match kind 0 w with
      | .hole => .hole
      | _ => .leaf w
  | l + 1, w =>
      match kind (l + 1) w with
      | .hole => .hole
      | .leaf => .leaf w
      | .table p => .table p fun i => treeOf mem l (mem p i)

/-- The slot of level `m` along `path` below the slot `r` of level `l`, if every
slot in between refers to a table. -/
def slotOf (mem : Memory P W n) (path : Nat → Fin n) (m : Nat) : Nat → Slot P n → Option (Slot P n)
  | 0, r => if 0 = m then some r else none
  | l + 1, r =>
      if l + 1 = m then some r
      else
        match kind (l + 1) (mem r.1 r.2) with
        | .table p => slotOf mem path m l (p, path l)
        | _ => none

variable {kind}

theorem treeOf_hole (mem : Memory P W n) {l : Nat} {w : W} (h : kind l w = .hole) :
    treeOf kind mem l w = .hole := by
  cases l <;> simp [treeOf, h]

theorem treeOf_leaf (mem : Memory P W n) {l : Nat} {w : W} (h : kind l w = .leaf) :
    treeOf kind mem l w = .leaf w := by
  cases l <;> simp [treeOf, h]

theorem treeOf_table (mem : Memory P W n) {l : Nat} {w : W} {p : P}
    (h : kind (l + 1) w = .table p) :
    treeOf kind mem (l + 1) w = .table p fun i => treeOf kind mem l (mem p i) := by
  simp [treeOf, h]

/-- A tree depends only on the contents of its own tables. -/
theorem treeOf_congr {mem mem' : Memory P W n} :
    ∀ (l : Nat) (w : W), (∀ p ∈ (treeOf kind mem l w).pages, mem' p = mem p) →
      treeOf kind mem' l w = treeOf kind mem l w
  | 0, w, _ => rfl
  | l + 1, w, same => by
      cases h : kind (l + 1) w with
      | hole => rw [treeOf_hole _ h, treeOf_hole _ h]
      | leaf => rw [treeOf_leaf _ h, treeOf_leaf _ h]
      | table p =>
          rw [treeOf_table mem h] at same ⊢
          rw [treeOf_table mem' h, same p (by simp [Tree.pages])]
          congr 1
          funext i
          refine treeOf_congr l (mem p i) fun q member => same q ?_
          exact List.mem_cons_of_mem _ (List.mem_flatMap.mpr ⟨i, List.mem_finRange i, member⟩)

theorem slotOf_eq_slot (mem : Memory P W n) (path : Nat → Fin n) (m : Nat) :
    ∀ (l : Nat) (q : Slot P n), slotOf kind mem path m l q =
      Tree.slot path m l q (treeOf kind mem l (mem q.1 q.2))
  | 0, q => by
      cases h : kind 0 (mem q.1 q.2) <;> simp [slotOf, treeOf, h, Tree.slot]
  | l + 1, q => by
      cases h : kind (l + 1) (mem q.1 q.2) with
      | hole => simp [slotOf, treeOf, h, Tree.slot]
      | leaf => simp [slotOf, treeOf, h, Tree.slot]
      | table p =>
          rw [treeOf_table mem h]
          simp only [slotOf, h, Tree.slot, Nat.add_sub_cancel]
          rw [slotOf_eq_slot mem path m l (p, path l)]

theorem slotOf_self (mem : Memory P W n) (path : Nat → Fin n) (m : Nat) (r : Slot P n) :
    slotOf kind mem path m m r = some r := by
  cases m <;> simp [slotOf]

theorem slotOf_table {mem : Memory P W n} {path : Nat → Fin n} {m l : Nat} {q : Slot P n} {p : P}
    (ne : l + 1 ≠ m) (h : kind (l + 1) (mem q.1 q.2) = .table p) :
    slotOf kind mem path m (l + 1) q = slotOf kind mem path m l (p, path l) := by
  simp [slotOf, ne, h]

/-- A slot further down a path that exists is one more table away. -/
theorem slotOf_cases {mem : Memory P W n} {path : Nat → Fin n} {m l : Nat} {q r : Slot P n}
    (found : slotOf kind mem path m l q = some r) :
    (l = m ∧ r = q) ∨ ∃ k p, l = k + 1 ∧ l ≠ m ∧ kind l (mem q.1 q.2) = .table p ∧
      slotOf kind mem path m k (p, path k) = some r := by
  cases l with
  | zero =>
      simp only [slotOf] at found
      split at found
      · rename_i same
        exact Or.inl ⟨same, (Option.some.inj found).symm⟩
      · cases found
  | succ k =>
      simp only [slotOf] at found
      split at found
      · rename_i same
        exact Or.inl ⟨same, (Option.some.inj found).symm⟩
      · rename_i ne
        split at found
        · rename_i p h
          exact Or.inr ⟨k, p, rfl, ne, h, found⟩
        · cases found

theorem slotOf_le {mem : Memory P W n} {path : Nat → Fin n} {m : Nat} :
    ∀ {l : Nat} {q r : Slot P n}, slotOf kind mem path m l q = some r → m ≤ l
  | 0, q, r, found => by
      rcases slotOf_cases found with ⟨same, -⟩ | ⟨k, p, e, -⟩
      · omega
      · omega
  | l + 1, q, r, found => by
      rcases slotOf_cases found with ⟨same, -⟩ | ⟨k, p, e, -, -, below⟩
      · omega
      · have := slotOf_le (l := l) (by simpa [Nat.succ.inj e] using below)
        omega

/-- The last table on the way down is one of the tree. -/
theorem slotOf_mem_pages {mem : Memory P W n} {path : Nat → Fin n} {m : Nat} :
    ∀ {l : Nat} {q r : Slot P n}, slotOf kind mem path m l q = some r → l ≠ m →
      r.1 ∈ (treeOf kind mem l (mem q.1 q.2)).pages
  | l, q, r, found, ne => by
      rcases slotOf_cases found with ⟨same, -⟩ | ⟨k, p, rfl, -, h, below⟩
      · exact absurd same ne
      · rw [treeOf_table mem h]
        by_cases last : k = m
        · subst last
          rw [slotOf_self] at below
          obtain rfl := Option.some.inj below
          simp [Tree.pages]
        · exact List.mem_cons_of_mem _ (List.mem_flatMap.mpr
            ⟨path k, List.mem_finRange _, slotOf_mem_pages below last⟩)

/-- One more table down the path. -/
theorem slotOf_down {mem : Memory P W n} {path : Nat → Fin n} {m : Nat} {p : P} :
    ∀ {l : Nat} {q r : Slot P n}, slotOf kind mem path (m + 1) l q = some r →
      kind (m + 1) (mem r.1 r.2) = .table p → slotOf kind mem path m l q = some (p, path m)
  | l, q, r, found, table => by
      rcases slotOf_cases found with ⟨rfl, rfl⟩ | ⟨k, p', rfl, ne, h, below⟩
      · rw [slotOf_table (Nat.succ_ne_self m) table, slotOf_self]
      · have := slotOf_le below
        rw [slotOf_table (by omega) h]
        exact slotOf_down below table

/-- Another index in the same table. -/
theorem slotOf_sibling {mem : Memory P W n} {path path' : Nat → Fin n} {m : Nat} :
    ∀ {l : Nat} {q r : Slot P n}, slotOf kind mem path m l q = some r → l ≠ m →
      (∀ k, m < k → k < l → path' k = path k) →
      slotOf kind mem path' m l q = some (r.1, path' m) ∧ r.2 = path m
  | l, q, r, found, ne, agree => by
      rcases slotOf_cases found with ⟨same, -⟩ | ⟨k, p, rfl, -, h, below⟩
      · exact absurd same ne
      · rw [slotOf_table ne h]
        by_cases last : k = m
        · subst last
          rw [slotOf_self] at below ⊢
          obtain rfl := Option.some.inj below
          exact ⟨rfl, rfl⟩
        · have := slotOf_le below
          rw [agree k (by omega) (Nat.lt_succ_self k)]
          exact slotOf_sibling below last fun j hj hk => agree j hj (by omega)

theorem slotOf_reaches {mem : Memory P W n} {path : Nat → Fin n} {m : Nat} :
    ∀ {l : Nat} {q r : Slot P n}, slotOf kind mem path m l q = some r →
      Tree.Reaches path m l (treeOf kind mem l (mem q.1 q.2))
  | l, q, r, found => by
      rcases slotOf_cases found with ⟨rfl, -⟩ | ⟨k, p, rfl, -, h, below⟩
      · cases treeOf kind mem l (mem q.1 q.2) <;> simp [Tree.Reaches]
      · rw [treeOf_table mem h]
        exact Or.inr (slotOf_reaches below)

theorem slotOf_subAt {mem : Memory P W n} {path : Nat → Fin n} {m : Nat} :
    ∀ {l : Nat} {q r : Slot P n}, slotOf kind mem path m l q = some r →
      Tree.subAt path m l (treeOf kind mem l (mem q.1 q.2)) = treeOf kind mem m (mem r.1 r.2)
  | l, q, r, found => by
      rcases slotOf_cases found with ⟨rfl, rfl⟩ | ⟨k, p, rfl, ne, h, below⟩
      · rw [Tree.subAt_self]
      · rw [treeOf_table mem h, Tree.subAt, if_neg ne]
        exact slotOf_subAt below

/-- Two ways that agree from level `m` up lead to the same slot of level `m`. -/
theorem slotOf_congr_path {mem : Memory P W n} {path path' : Nat → Fin n} {m : Nat} :
    ∀ {l : Nat} {q : Slot P n}, (∀ k, m ≤ k → k < l → path' k = path k) →
      slotOf kind mem path' m l q = slotOf kind mem path m l q
  | 0, _, _ => rfl
  | l + 1, q, agree => by
      unfold slotOf
      split
      · rfl
      · rename_i ne
        by_cases le : m ≤ l
        · rw [agree l le (Nat.lt_succ_self l)]
          split
          · exact slotOf_congr_path fun k hk hl => agree k hk (by omega)
          · rfl
        · -- below its target a walk only fails, whatever it reads
          have stuck : ∀ (path : Nat → Fin n) (r : Slot P n), slotOf kind mem path m l r = none := by
            intro path r
            cases found : slotOf kind mem path m l r with
            | none => rfl
            | some _ => exact absurd (slotOf_le found) le
          split <;> simp [stuck]

/-- The slots along a path survive when their words do. -/
theorem slotOf_congr {mem mem' : Memory P W n} {path : Nat → Fin n} {m : Nat} :
    ∀ {l : Nat} {q : Slot P n}, (l ≠ m → mem' q.1 q.2 = mem q.1 q.2) →
      (∀ p ∈ (treeOf kind mem l (mem q.1 q.2)).pages, mem' p = mem p) →
      slotOf kind mem' path m l q = slotOf kind mem path m l q
  | 0, q, _, _ => rfl
  | l + 1, q, root, same => by
      by_cases e : l + 1 = m
      · simp [slotOf, e]
      · cases h : kind (l + 1) (mem q.1 q.2) with
        | hole => simp [slotOf, e, root e, h]
        | leaf => simp [slotOf, e, root e, h]
        | table p =>
            rw [slotOf_table e h, slotOf_table e (by rw [root e, h])]
            rw [treeOf_table mem h] at same
            have page : mem' p = mem p := same p (by simp [Tree.pages])
            refine slotOf_congr (fun _ => by rw [page]) fun q member => same q ?_
            exact List.mem_cons_of_mem _ (List.mem_flatMap.mpr ⟨path l, List.mem_finRange _, member⟩)

/-- The tables of a tree without shared tables: those of its subtrees, all different. -/
theorem Tree.nodup_table {p : P} {sub : Fin n → Tree P W n} (nodup : (Tree.table p sub).pages.Nodup) :
    (∀ i, p ∉ (sub i).pages) ∧ (∀ i, (sub i).pages.Nodup) ∧
      ∀ i j, i ≠ j → List.Disjoint (sub i).pages (sub j).pages := by
  rw [Tree.pages, List.nodup_cons, List.nodup_flatMap] at nodup
  obtain ⟨fresh, each, pairwise⟩ := nodup
  refine ⟨fun i member => ?_, fun i => each i (List.mem_finRange i), fun i j ij => ?_⟩
  · exact fresh (List.mem_flatMap.mpr ⟨i, List.mem_finRange i, member⟩)
  · have : Std.Symm (Function.onFun List.Disjoint fun i => (sub i).pages) :=
      ⟨fun _ _ d _ hi hj => d hj hi⟩
    exact pairwise.forall (List.mem_finRange i) (List.mem_finRange j) ij

/-- **A slot has one level**, in a tree without shared tables. -/
theorem slotOf_level {mem : Memory P W n} {path path' : Nat → Fin n} {m m' : Nat} :
    ∀ {l : Nat} {q r : Slot P n}, (treeOf kind mem l (mem q.1 q.2)).pages.Nodup →
      q.1 ∉ (treeOf kind mem l (mem q.1 q.2)).pages →
      slotOf kind mem path m l q = some r → slotOf kind mem path' m' l q = some r → m = m'
  | l, q, r, nodup, outside, found, found' => by
      rcases slotOf_cases found with ⟨rfl, rfl⟩ | ⟨k, p, rfl, ne, h, below⟩
      · by_contra other
        exact outside (slotOf_mem_pages found' other)
      · rcases slotOf_cases found' with ⟨rfl, rfl⟩ | ⟨k', p', e, ne', h', below'⟩
        · exact absurd (slotOf_mem_pages found ne) outside
        · obtain rfl : k = k' := Nat.succ.inj e
          obtain rfl : p = p' := Kind.table.inj (h.symm.trans h')
          rw [treeOf_table mem h] at nodup
          obtain ⟨fresh, each, disjoint⟩ := Tree.nodup_table nodup
          by_cases same : path k = path' k
          · rw [← same] at below'
            exact slotOf_level (each (path k)) (fresh (path k)) below below'
          · -- in two subtrees only if the slot is one of `p`, which is below neither
            by_cases last : k = m
            · subst last
              rw [slotOf_self] at below
              obtain rfl := Option.some.inj below
              by_contra other
              exact fresh _ (slotOf_mem_pages below' other)
            · by_cases last' : k = m'
              · subst last'
                rw [slotOf_self] at below'
                obtain rfl := Option.some.inj below'
                exact absurd (slotOf_mem_pages below last) (fresh _)
              · exact absurd (slotOf_mem_pages below' last')
                  (disjoint _ _ same (slotOf_mem_pages below last))

/-- **A slot write is `modify` at that slot**, on a tree without shared tables. -/
theorem treeOf_write [DecidableEq P] {mem : Memory P W n} {path : Nat → Fin n} {m : Nat} {r : Slot P n} (w : W) :
    ∀ {l : Nat} {q : Slot P n}, slotOf kind mem path m l q = some r →
      (treeOf kind mem l (mem q.1 q.2)).pages.Nodup →
      q.1 ∉ (treeOf kind mem l (mem q.1 q.2)).pages →
      treeOf kind (write mem r w) l (write mem r w q.1 q.2) =
        Tree.modify path m (treeOf kind (write mem r w) m w) l
          (treeOf kind mem l (mem q.1 q.2))
  | l, q, found, nodup, outside => by
      rcases slotOf_cases found with ⟨rfl, rfl⟩ | ⟨k, p, rfl, ne, h, below⟩
      · rw [Tree.modify_self, write_self]
      · have tree := treeOf_table mem h
        have rq : r ≠ q := by
          rintro rfl
          exact outside (slotOf_mem_pages found ne)
        rw [tree] at nodup outside ⊢
        obtain ⟨freshAt, subNodup, disjoint⟩ := Tree.nodup_table nodup
        rw [Tree.modify_table_ne path _ p _ ne, write_ne mem r w (show (q.1, q.2) ≠ r from fun e => rq e.symm),
          treeOf_table _ h]
        congr 1
        funext i
        by_cases here : i = path k
        · subst here
          rw [Nat.add_sub_cancel, Function.update_self]
          exact treeOf_write w below (subNodup _) (freshAt _)
        · rw [Nat.add_sub_cancel, Function.update_of_ne here]
          have word : write mem r w p i = mem p i := by
            refine write_ne mem r w fun e => ?_
            by_cases last : k = m
            · subst last
              rw [slotOf_self, ← e] at below
              exact here (congrArg Prod.snd (Option.some.inj below)).symm
            · have := slotOf_mem_pages below last
              rw [← e] at this
              exact freshAt _ this
          rw [word]
          refine treeOf_congr k _ fun t member => write_page_ne mem r w fun e => ?_
          by_cases last : k = m
          · subst last
            rw [slotOf_self] at below
            rw [e, ← Option.some.inj below] at member
            exact freshAt i member
          · have := slotOf_mem_pages below last
            rw [← e] at this
            exact disjoint _ _ here member this

/-- A search uses the path from the level where it ends up to its own. -/
theorem find_treeOf_agree {mem : Memory P W n} (path : Nat → Fin n) {path' : Nat → Fin n} :
    ∀ (l : Nat) (w : W),
      (∀ k, ((treeOf kind mem l w).find path l).1 ≤ k → k < l → path' k = path k) →
      (treeOf kind mem l w).find path' l = (treeOf kind mem l w).find path l
  | 0, w, _ => by cases h : kind 0 w <;> simp [treeOf, h, Tree.find]
  | l + 1, w, agree => by
      cases h : kind (l + 1) w with
      | hole => rw [treeOf_hole mem h, Tree.find, Tree.find]
      | leaf => rw [treeOf_leaf mem h, Tree.find, Tree.find]
      | table p =>
          rw [treeOf_table mem h] at agree ⊢
          rw [Tree.find, Nat.add_sub_cancel] at agree
          rw [Tree.find, Tree.find, Nat.add_sub_cancel,
            agree l (Tree.find_level_le _ _ _) (Nat.lt_succ_self l)]
          exact find_treeOf_agree path l _ fun k low high => agree k low (by omega)

/-- A tree in which no search reaches level 0 has no table of that level. -/
theorem bottomless_treeOf [NeZero n] {mem : Memory P W n} :
    ∀ (l : Nat) (w : W), (∀ path, ((treeOf kind mem l w).find path l).1 ≠ 0) →
      (treeOf kind mem l w).Bottomless l
  | 0, w, never => by
      cases h : kind 0 w <;> simp [treeOf, h, Tree.Bottomless]
  | l + 1, w, never => by
      cases h : kind (l + 1) w with
      | hole => rw [treeOf_hole mem h]; trivial
      | leaf => rw [treeOf_leaf mem h]; trivial
      | table p =>
          rw [treeOf_table mem h] at never ⊢
          refine ⟨fun bottom => ?_, fun i => bottomless_treeOf l _ fun path => ?_⟩
          · obtain rfl : l = 0 := by omega
            have lowest := Tree.find_level_le (fun _ => 0) 0 (treeOf kind mem 0 (mem p 0))
            exact never (fun _ => 0) (Nat.le_zero.mp lowest)
          · -- take the index `i` first, then follow `path`
            have through := never (Function.update path l i)
            rw [Tree.find, Nat.add_sub_cancel, Function.update_self] at through
            rwa [find_treeOf_agree path l _ fun k _ hk =>
              Function.update_of_ne (Nat.ne_of_lt hk) _ _] at through

end TreeOf

end Nova.Theory.Radix
