/-
# Nova.Kernel.Creation — what a failed creation leaves behind

Every function of `Pd::create_*` that fails should leave the kernel as it was.
`Restored` says so: the pages and buffers in use, the attach bits and pointers of the
PDs, the capabilities and the mappings are those from before the call.  (Tables for
capabilities that were linked meanwhile do not count, and are not counted.)

A factory gives back what it took when it fails.  But when the object exists and only
its capability cannot be inserted, `destroy` gives back the object alone: no
destructor runs, so the pages that the object owns are lost, and what its constructor
mapped stays mapped.

* `Spends` says when a call gets as far as an object with pages of its own.
* `Ends` are the three ways in which a call can end, `Ends.atomic_iff` what they say.
* `Makes` is what a factory promises: it takes nothing, or it says what it holds.
  `Makes.settle` derives the end of a call from it.
* The promises of the factories close the file.
-/
import Nova.Kernel.Ledger

namespace Nova.Kernel

open Nova.Theory.Words
open Nova.Theory.Radix
open Nova.Theory.Runs

set_option autoImplicit false

namespace Creation

open Syscall (SpaceKind)
open Attach (Kind)

/-- What a call has to leave alone: everything of the PDs and spaces that there are -/
structure Kept (cfg : Config) (s s' : Heap) : Prop where
  attached : ∀ pd ∈ s.pds, s'.spaces pd = s.spaces pd
  pointers : ∀ pd ∈ s.pds, s'.ptr pd = s.ptr pd
  capabilities : ∀ o, s.Space cfg .obj o → s'.caps o = s.caps o
  /-- In all page tables of a space: on x86 a host space has one for each CPU -/
  mappings : ∀ k o i x, s.Space cfg (spaceOf k) o →
    (cfg.ptab k o i).translation s'.mem x = (cfg.ptab k o i).translation s.mem x

/-- The state is as before the call. -/
structure Restored (cfg : Config) (s s' : Heap) : Prop extends Kept cfg s s' where
  pages : s'.mem.live.Perm s.mem.live
  buffers : ∀ c, s.Owned c → (s'.cache c).live.Perm (s.cache c).live
  slabs : ∀ c, s.Owned c → (s'.cache c).pages.Perm (s.cache c).pages

/-- The PD of a call is constructed. -/
def Heap.Legal (s : Heap) : Call → Prop
  | .obj pd | .hst pd | .gst pd | .dma pd | .pio pd | .msr pd | .ec pd .. => pd ∈ s.pds
  | .pd _ | .sc | .pt | .sm _ => True

/-! ## When a creation is atomic -/

/-- The capability can be inserted: its slot is free, and there is memory for the tables. -/
def Insertable (t : Target) (s : Heap) : Prop := t.memory = true ∧ (s.caps t.obj).lookup t.sel = .null

/-- The pages of an Ec and its buffer -/
def Heap.needsEc (s : Heap) : List Nat := 0 :: s.needs .ec

/-- The area for the FPU, if one is asked for -/
def Heap.needsFpu (s : Heap) (pd : Nat) (fpu : Bool) : List Nat := if fpu then s.needs (.fpu pd) else []

/-- The Ec gets its memory: for VMX, or for SVM after that failed. -/
def Config.VcpuMemory (cfg : Config) (s : Heap) (mem : State) : Prop :=
  cfg.vmx = true ∧ (mem.reserve s.needsEc).1 = true ∨
    cfg.svm = true ∧ ((if cfg.vmx then (mem.reserve s.needsEc).2 else mem).reserve s.needsEc).1 = true

/-- The call gets as far as an object that owns pages: none of its checks fails, and Buddy answers all its requests. -/
def Config.Spends (cfg : Config) (s : Heap) : Call → Prop
  | .hst pd => s.spaces pd &&& Kind.hst.bit = 0#32 ∧ (s.mem.reserve (s.needs (.space .hst pd) ++ [0])).1 = true
  | .gst pd => (s.mem.reserve (s.needs (.space .gst pd) ++ [0])).1 = true
  | .dma pd => (s.mem.reserve (s.needs (.space .dma pd) ++ [0])).1 = true
  | .pio pd => (s.ptr pd .hst).isSome = true ∧ (s.mem.reserve (1 :: s.needs (.space .pio pd))).1 = true
  | .msr pd => (s.mem.reserve (0 :: s.needs (.space .msr pd))).1 = true
  | .ec pd flg _ _ =>
      (s.ptr pd .obj).isSome = true ∧ (s.ptr pd .hst).isSome = true ∧ (s.mem.reserve (s.needsFpu pd (flg.getLsbD 2))).1 = true ∧
        if flg.getLsbD 1 then cfg.VcpuMemory s (s.mem.reserve (s.needsFpu pd (flg.getLsbD 2))).2
        else (s.ptr pd .pio).isSome = true ∧
          ((s.mem.reserve (s.needsFpu pd (flg.getLsbD 2))).2.reserve s.needsEc).1 = true
  | .pd _ | .obj _ | .sc | .pt | .sm _ => False

/-! ## Frames -/

section Frames

variable {cfg : Config} {s s' s'' : Heap}

theorem translation_congr (T : Pagetable) {m m' : State} (same : m'.mem = m.mem) (x : Word) :
    T.translation m' x = T.translation m x := by
  unfold Pagetable.translation Pagetable.find Pagetable.tree State.load
  rw [same]

theorem Kept.refl (cfg : Config) (s : Heap) : Kept cfg s s :=
  ⟨fun _ _ => rfl, fun _ _ => rfl, fun _ _ => rfl, fun _ _ _ _ _ => rfl⟩

theorem Kept.frame (kept : Kept cfg s s') (frame : Frame s' s'') : Kept cfg s s'' where
  attached pd member := by rw [frame.spaces]; exact kept.attached pd member
  pointers pd member := by rw [frame.ptr]; exact kept.pointers pd member
  capabilities o space := by rw [frame.caps]; exact kept.capabilities o space
  mappings k o i x space := (translation_congr _ frame.tables x).trans (kept.mappings k o i x space)

theorem Ledger.restored (ledger : Ledger [] [] s s') (kept : Kept cfg s s') : Restored cfg s s' where
  toKept := kept
  pages := ledger.live
  buffers := ledger.buffers
  slabs := ledger.pages

/-- Tables are page-aligned. -/
theorem aligned_of_mem_tree {F : Format} (lawful : F.Lawful) (mem : Memory Word Word entries) :
    ∀ (l : Nat) (e p : Word), p ∈ (treeOf F.kind mem l e).pages → p.toNat % 2 ^ pageBits = 0
  | 0, e, p, member => by
      rw [treeOf] at member
      split at member <;> cases member
  | l + 1, e, p, member => by
      cases kind : F.kind (l + 1) e with
      | hole =>
          rw [treeOf_hole mem kind] at member
          cases member
      | leaf =>
          rw [treeOf_leaf mem kind] at member
          cases member
      | table page =>
          rw [treeOf_table mem kind] at member
          obtain ⟨-, -, rfl⟩ := Format.kind_table_iff.mp kind
          rcases List.mem_cons.mp member with rfl | below
          · have frame := (lawful.addr_frame (Nat.zero_le _) e).1
            rwa [Nat.zero_mul, Nat.zero_add] at frame
          · obtain ⟨i, -, inside⟩ := List.mem_flatMap.mp below
            exact aligned_of_mem_tree lawful mem l (mem (F.addr 0 e) i) p inside

theorem lt_of_space (wf : s.WF cfg) {k : SpaceKind} {o : Nat} (space : s.Space cfg k o) : o < 2 ^ 64 := by
  have below : ∀ page : Word, page.toNat = SlabCache.fromBuffer o → o < 2 ^ 64 := by
    intro page value
    have small := page.isLt
    unfold SlabCache.fromBuffer at value
    rw [show slabBytes = 4096 from rfl] at value
    omega
  rcases space with rfl | ⟨pd, member, live⟩
  · obtain ⟨page, -, value, -⟩ := wf.fixed k
    exact below page value
  · obtain ⟨page, -, -, value⟩ := wf.backed (.space k pd) member _
      (((wf.sound (.space k pd) member).pages_iff _).mpr ⟨o, live, rfl⟩)
    exact below page value

/-- Objects are not page-aligned. -/
theorem Ledger.unaligned {B : List Held} {X : List Word} (wf : s.WF cfg) {c : Cache} {o : Nat} {slab : List Word}
    (ledger : Ledger (⟨c, o, slab⟩ :: B) X s s') (owned : s.Owned c) : o < 2 ^ 64 ∧ o % 2 ^ pageBits ≠ 0 := by
  have entry := inCache_self ⟨c, o, slab⟩ B
  dsimp only at entry
  have member : o ∈ (s'.cache c).live :=
    (ledger.buffers c owned).mem_iff.mpr (by rw [entry]; exact List.mem_cons_self)
  obtain ⟨⟨P, F, shape⟩, -⟩ := ledger.sound c owned
  obtain ⟨page, within, value, -⟩ := ledger.slab_cases wf owned
  obtain ⟨aligned, inside⟩ := shape.live_mem member
  obtain ⟨i, below, place⟩ := List.mem_map.mp inside
  obtain ⟨-, positive, fits⟩ := shape.geometry
  have low : (s'.cache c).bsz ≤ (i + 1) * (s'.cache c).bsz := Nat.le_mul_of_pos_left _ (Nat.succ_pos i)
  have high : (i + 1) * (s'.cache c).bsz ≤ (s'.cache c).bps * (s'.cache c).bsz :=
    Nat.mul_le_mul_right _ (List.mem_range.mp below)
  have small := within.2
  generalize SlabCache.fromBuffer o = x at *
  generalize (i + 1) * (s'.cache c).bsz = d at *
  have fits : (s'.cache c).bps * (s'.cache c).bsz ≤ 4056 := fits
  have place : x + 4096 - d = o := place
  have aligned : x % 4096 = 0 := aligned
  show o < 2 ^ 64 ∧ o % 4096 ≠ 0
  omega

/-- **The roots of a new space are in no page table of another.** -/
theorem translation_clear {B : List Held} {X : List Word} (wf : s.WF cfg) {c : Cache} {o : Nat} {slab : List Word}
    (ledger : Ledger (⟨c, o, slab⟩ :: B) X s s') (owned : s.Owned c) {k : MemKind} {o' : Nat}
    (space : s.Space cfg (spaceOf k) o') (i : Fin entries) (m : State) (x : Word) :
    (cfg.ptab k o' i).translation { m with mem := Function.update m.mem (BitVec.ofNat 64 o) fun _ => 0#64 } x =
      (cfg.ptab k o' i).translation m x := by
  obtain ⟨small, unaligned⟩ := ledger.unaligned wf owned
  have small' := lt_of_space wf space
  have value : (BitVec.ofNat 64 o).toNat = o := by rw [BitVec.toNat_ofNat, Nat.mod_eq_of_lt small]
  have value' : (BitVec.ofNat 64 o').toNat = o' := by rw [BitVec.toNat_ofNat, Nat.mod_eq_of_lt small']
  have root : BitVec.ofNat 64 o' ≠ BitVec.ofNat 64 o := by
    intro same
    have eq : o' = o := by rw [← value', same, value]
    exact ledger.fresh_space wf owned _ (eq ▸ space)
  have tree : (cfg.ptab k o' i).tree { m with mem := Function.update m.mem (BitVec.ofNat 64 o) fun _ => 0#64 } =
      (cfg.ptab k o' i).tree m := by
    have load : State.load { m with mem := Function.update m.mem (BitVec.ofNat 64 o) fun _ => 0#64 } (cfg.ptab k o' i).root =
        m.load (cfg.ptab k o' i).root := congrFun (Function.update_of_ne root _ _) i
    unfold Pagetable.tree
    rw [load]
    refine treeOf_congr _ _ fun p member => Function.update_of_ne (fun same => unaligned ?_) _ _
    have aligned := aligned_of_mem_tree (Fmt.lawful _) _ _ _ p member
    rwa [same, value] at aligned
  unfold Pagetable.translation Pagetable.find
  rw [tree]

end Frames

/-! ## The common end -/

/-- How a call ends; `spends` says whether its object owns pages. -/
inductive Ends (cfg : Config) (t : Target) (spends : Prop) (s : Heap) : Except Status Nat → Heap → Prop
  | inserted (o : Nat) (s' : Heap) (can : spends → Insertable t s) : Ends cfg t spends s (.ok o) s'
  | restored (e : Status) (s' : Heap) (little : ¬ spends) (back : Restored cfg s s') : Ends cfg t spends s (.error e) s'
  | leaked (e : Status) (s' : Heap) (much : spends) (cannot : ¬ Insertable t s) (lost : ¬ s'.mem.live.Perm s.mem.live) :
      Ends cfg t spends s (.error e) s'

/-- **Atomicity of a call, by its end** -/
theorem Ends.atomic_iff {cfg : Config} {t : Target} {spends : Prop} {s s' : Heap} {r : Except Status Nat}
    (ends : Ends cfg t spends s r s') : (∀ e, r = .error e → Restored cfg s s') ↔ ¬ spends ∨ Insertable t s := by
  cases ends with
  | inserted o s' can =>
      refine ⟨fun _ => ?_, fun _ e failed => by cases failed⟩
      by_cases much : spends
      · exact Or.inr (can much)
      · exact Or.inl much
  | restored e s' little back => exact ⟨fun _ => Or.inl little, fun _ _ _ => back⟩
  | leaked e s' much cannot lost =>
      refine ⟨fun all => absurd (all e rfl).pages lost, ?_⟩
      rintro (little | can)
      · exact absurd much little
      · exact absurd can cannot

/-- What a factory promises, for objects of the cache `c` -/
structure Makes (cfg : Config) (spends : Prop) (c : Cache) (s : Heap) (made : Outcome) : Prop where
  failed : ∀ e s', made = some (.error e, s') →
    ¬ spends ∧ Ledger [] [] s s' ∧ Kept cfg s s' ∧ s'.pds = s.pds
  done : ∀ o s', made = some (.ok o, s') → s'.WF cfg ∧ s'.pds.erase o = s.pds ∧
    ∃ slab B X, Ledger (⟨c, o, slab⟩ :: B) X s s' ∧ (∀ h ∈ B, h.cache ≠ c) ∧
      (spends ∧ X ≠ [] ∧ s'.caps = s.caps ∨ ¬ spends ∧ B = [] ∧ X = [] ∧ Kept cfg s s')

/-- The invariant does not speak of the fields of PDs and spaces. -/
theorem Heap.WF.congr {cfg : Config} {s s' : Heap} (wf : s.WF cfg) (mem : s'.mem = s.mem) (cache : s'.cache = s.cache)
    (pds : s'.pds = s.pds) : s'.WF cfg := by
  have same : ∀ c, s'.Owned c ↔ s.Owned c := by
    intro c
    cases c <;> simp [Heap.Owned, pds]
  refine ⟨mem ▸ wf.alone, fun c owned => ?_, fun c owned => ?_, fun c c' owned owned' => ?_, ?_, fun k => ?_⟩
  · rw [cache]; exact wf.sound c ((same c).mp owned)
  · rw [cache, mem]; exact wf.backed c ((same c).mp owned)
  · rw [cache]; exact wf.apart c c' ((same c).mp owned) ((same c').mp owned')
  · rw [cache, pds]; exact wf.pds
  · obtain ⟨page, live, value, none⟩ := wf.fixed k
    exact ⟨page, mem ▸ live, value, fun c owned => cache ▸ none c ((same c).mp owned)⟩

theorem insert_cases (t : Target) (s : Heap) (cap : Capability) :
    Insertable t s ∧ ((s.caps t.obj).insert t.sel cap t.memory).1 = .success ∨
      ¬ Insertable t s ∧ ∃ e, (s.caps t.obj).insert t.sel cap t.memory = (e, s.caps t.obj) ∧ e ≠ .success := by
  unfold Caps.insert Insertable
  cases memory : t.memory with
  | false => exact Or.inr ⟨fun can => Bool.noConfusion can.1, .insMem, rfl, Status.noConfusion⟩
  | true =>
      by_cases free : (s.caps t.obj).lookup t.sel = .null
      · rw [if_neg (by decide), if_pos free]
        exact Or.inl ⟨⟨rfl, free⟩, rfl⟩
      · rw [if_neg (by decide), if_neg free]
        exact Or.inr ⟨fun can => free can.2, .badCap, rfl, Status.noConfusion⟩

/-- **The capability is inserted, or the object destroyed.** -/
theorem Makes.settle {cfg : Config} {spends : Prop} {c : Cache} {s s' : Heap} {made : Outcome} {t : Target} {prm : Perm}
    {r : Except Status Nat} (wf : s.WF cfg) (owned : s.Owned c) (makes : Makes cfg spends c s made)
    (done : settle t prm c made = some (r, s')) : Ends cfg t spends s r s' ∧ s'.WF cfg := by
  match made, done, makes with
  | some (.error e, s₁), done, makes =>
      obtain ⟨rfl, rfl⟩ := Prod.mk.inj (Option.some.inj done)
      obtain ⟨little, ledger, kept, pds⟩ := makes.failed e s₁ rfl
      exact ⟨.restored e s₁ little (ledger.restored kept), ledger.wf wf pds⟩
  | some (.ok o, s₁), done, makes =>
      obtain ⟨wf₁, pds, slab, B, X, ledger, only, cases⟩ := makes.done o s₁ rfl
      unfold Creation.settle at done
      dsimp only at done
      rcases insert_cases t s₁ (.ofObject (BitVec.ofNat 64 o) prm) with ⟨can, success⟩ | ⟨cannot, e, same, failed⟩
      · rw [if_pos success] at done
        obtain ⟨rfl, rfl⟩ := Prod.mk.inj (Option.some.inj done)
        refine ⟨.inserted o _ fun much => ?_, wf₁.congr rfl rfl rfl⟩
        rcases cases with ⟨-, -, caps⟩ | ⟨little, -⟩
        · unfold Insertable at can ⊢
          rwa [caps] at can
        · exact absurd much little
      · rw [same, if_neg failed] at done
        dsimp only at done
        rw [Function.update_eq_self] at done
        obtain ⟨s₂, deleted, pds₂, frame, ledger₂⟩ := ledger.delete wf owned only
        change (s₁.delete c o).map _ = _ at done
        rw [deleted] at done
        obtain ⟨rfl, rfl⟩ := Prod.mk.inj (Option.some.inj done)
        refine ⟨?_, ledger₂.wf wf (pds₂.trans pds)⟩
        rcases cases with ⟨much, some, caps⟩ | ⟨little, rfl, rfl, kept⟩
        · refine .leaked e s₂ much (fun can => cannot ?_) (ledger₂.not_restored some)
          unfold Insertable at can ⊢
          rwa [caps]
        · exact .restored e s₂ little (ledger₂.restored (kept.frame frame))

/-! ## The factories -/

section Factories
variable {cfg : Config} {s : Heap}

/-- A factory that only calls a constructor, which owns no pages -/
theorem makes_plain {c : Cache} {construct : Nat → Heap → Heap} (wf : s.WF cfg) (owned : s.Owned c)
    (constructs : ∀ o slab s', Ledger [⟨c, o, slab⟩] [] s s' → Kept cfg s s' → s'.pds = s.pds → s'.WF cfg →
      (construct o s').WF cfg ∧ (construct o s').pds.erase o = s.pds ∧ Ledger [⟨c, o, slab⟩] [] s (construct o s') ∧
        Kept cfg s (construct o s')) :
    Makes cfg False c s (Config.plain c construct s) := by
  obtain ⟨answer, s₁, done, new⟩ := (Ledger.refl wf).new wf owned
  unfold Config.plain
  rw [done]
  have kept := (Kept.refl cfg s).frame new.frame
  cases answer with
  | none =>
      refine ⟨fun e s' failed => ?_, fun o s' made => ?_⟩
      · obtain ⟨-, rfl⟩ := Prod.mk.inj (Option.some.inj failed)
        exact ⟨not_false, (new.failed rfl).2, kept, new.pds⟩
      · cases made
  | some o =>
      refine ⟨fun e s' failed => ?_, fun o' s' made => ?_⟩
      · cases failed
      · obtain ⟨same, rfl⟩ := Prod.mk.inj (Option.some.inj made)
        obtain rfl := Except.ok.inj same
        obtain ⟨-, slab, ledger⟩ := new.made o rfl
        obtain ⟨wf', pds, ledger', kept'⟩ := constructs o slab s₁ ledger kept new.pds (ledger.wf wf new.pds)
        exact ⟨wf', pds, slab, [], [], ledger', List.forall_mem_nil _, Or.inr ⟨not_false, rfl, rfl, kept'⟩⟩

theorem makes_simple {c : Cache} (wf : s.WF cfg) (owned : s.Owned c) :
    Makes cfg False c s (Config.plain c (fun _ s => s) s) :=
  makes_plain wf owned fun _ _ _ ledger kept pds wf' =>
    ⟨wf', by rw [pds, List.erase_of_not_mem (ledger.fresh_pd wf owned)], ledger, kept⟩

theorem makes_obj {pd : Nat} (wf : s.WF cfg) (member : pd ∈ s.pds) :
    Makes cfg False (.space .obj pd) s (Config.newObj pd s) :=
  makes_plain wf member fun o slab s' ledger kept pds wf' =>
    ⟨wf'.congr rfl rfl rfl, by rw [pds, List.erase_of_not_mem (ledger.fresh_pd wf member)], ledger.congr (fun _ _ => rfl) rfl rfl,
      { kept with
        capabilities := fun o' space => by
          refine (Function.update_of_ne ?_ _ _).trans (kept.capabilities o' space)
          rintro rfl
          exact ledger.fresh_space wf member _ space }⟩

/-- The constructor of a PD -/
theorem wf_constructPd {o : Nat} (wf : s.WF cfg) (live : o ∈ (s.cache .pd).live) (fresh : o ∉ s.pds) :
    (cfg.constructPd o s).WF cfg := by
  have created (size a : Nat) (slab : Nat → Slab) (fits : SlabCache.roundedSize size a ≤ slabBytes - metaBytes) :
      (SlabCache.create o size a slab).Sound ∧ (SlabCache.create o size a slab).pages = [] := by
    refine ⟨SlabCache.sound_create _ _ _ _ ?_, rfl⟩
    have big := SlabCache.le_roundedSize size a
    show 0 < (slabBytes - metaBytes) / (SlabCache.create o size a slab).bsz
    rw [SlabCache.bsz_create fits]
    exact Nat.div_pos fits (by omega)
  -- a cache is an old one, or it is new and has no slabs
  have cases : ∀ c, (cfg.constructPd o s).Owned c → ((cfg.constructPd o s).cache c).Sound ∧
      (s.Owned c ∧ (cfg.constructPd o s).cache c = s.cache c ∨ ((cfg.constructPd o s).cache c).pages = []) := by
    intro c owned
    match c, owned with
    | .pd, _ => exact ⟨wf.sound .pd trivial, Or.inl ⟨trivial, rfl⟩⟩
    | .ec, _ => exact ⟨wf.sound .ec trivial, Or.inl ⟨trivial, rfl⟩⟩
    | .sc, _ => exact ⟨wf.sound .sc trivial, Or.inl ⟨trivial, rfl⟩⟩
    | .pt, _ => exact ⟨wf.sound .pt trivial, Or.inl ⟨trivial, rfl⟩⟩
    | .sm, _ => exact ⟨wf.sound .sm trivial, Or.inl ⟨trivial, rfl⟩⟩
    | .space k pd, owned =>
        by_cases same : pd = o
        · have cache : (cfg.constructPd o s).cache (.space k pd) = SlabCache.create o (cfg.size k) kobjectAlignment _ := if_pos same
          rw [cache]
          exact ⟨(created _ _ _ (cfg.fits k)).1, Or.inr rfl⟩
        · have cache : (cfg.constructPd o s).cache (.space k pd) = s.cache (.space k pd) := if_neg same
          have old : pd ∈ s.pds := (List.mem_cons.mp owned).resolve_left same
          rw [cache]
          exact ⟨wf.sound (.space k pd) old, Or.inl ⟨old, rfl⟩⟩
    | .fpu pd, owned =>
        by_cases same : pd = o
        · have cache : (cfg.constructPd o s).cache (.fpu pd) = SlabCache.create o cfg.fpuSize 64 _ := if_pos same
          rw [cache]
          exact ⟨(created _ _ _ cfg.fpuFits).1, Or.inr rfl⟩
        · have cache : (cfg.constructPd o s).cache (.fpu pd) = s.cache (.fpu pd) := if_neg same
          have old : pd ∈ s.pds := (List.mem_cons.mp owned).resolve_left same
          rw [cache]
          exact ⟨wf.sound (.fpu pd) old, Or.inl ⟨old, rfl⟩⟩
  have old : ∀ c, (cfg.constructPd o s).Owned c → ∀ x ∈ ((cfg.constructPd o s).cache c).pages,
      s.Owned c ∧ x ∈ (s.cache c).pages := by
    intro c owned x member
    rcases (cases c owned).2 with ⟨was, same⟩ | none
    · exact ⟨was, same ▸ member⟩
    · rw [none] at member
      cases member
  refine ⟨wf.alone, fun c owned => (cases c owned).1, fun c owned x member => ?_, fun c c' owned owned' ne x member other => ?_,
    fun pd member => ?_, fun k => ?_⟩
  · obtain ⟨was, inside⟩ := old c owned x member
    exact wf.backed c was x inside
  · obtain ⟨was, inside⟩ := old c owned x member
    obtain ⟨was', inside'⟩ := old c' owned' x other
    exact wf.apart c c' was was' ne x inside inside'
  · rcases List.mem_cons.mp member with rfl | before
    · exact live
    · exact wf.pds pd before
  · obtain ⟨page, live, value, none⟩ := wf.fixed k
    refine ⟨page, live, value, fun c owned member => ?_⟩
    obtain ⟨was, inside⟩ := old c owned _ member
    exact none c was inside

theorem makes_pd (wf : s.WF cfg) : Makes cfg False .pd s (cfg.newPd s) := by
  refine makes_plain wf (c := .pd) trivial fun o slab s' ledger kept pds wf' => ?_
  have fresh : o ∉ s.pds := ledger.fresh_pd wf (c := .pd) trivial
  have other : ∀ pd ∈ s.pds, pd ≠ o := fun pd member same => fresh (same ▸ member)
  have live : o ∈ (s'.cache .pd).live :=
    (ledger.buffers .pd trivial).mem_iff.mpr (List.mem_append_left _ List.mem_cons_self)
  refine ⟨wf_constructPd wf' live (pds ▸ fresh), ?_, ledger.congr (fun c owned => ?_) rfl rfl, ?_⟩
  · show (o :: s'.pds).erase o = s.pds
    rw [List.erase_cons_head, pds]
  · match c, owned with
    | .pd, _ | .ec, _ | .sc, _ | .pt, _ | .sm, _ => rfl
    | .space k pd, owned => exact if_neg (other pd owned)
    | .fpu pd, owned => exact if_neg (other pd owned)
  · exact ⟨fun pd member => (Function.update_of_ne (other pd member) _ _).trans (kept.attached pd member),
      fun pd member => (Function.update_of_ne (other pd member) _ _).trans (kept.pointers pd member),
      kept.capabilities, kept.mappings⟩

/-! ### Spaces with a page table -/

theorem makes_mem {k : MemKind} {construct : Nat → Heap → Heap} {pd : Nat} (wf : s.WF cfg) (member : pd ∈ s.pds)
    (constructs : ∀ o s', ∃ cpus, construct o s' = { s' with cpus }) :
    Makes cfg ((s.mem.reserve (s.needs (.space (spaceOf k) pd) ++ [0])).1 = true) (.space (spaceOf k) pd) s
      (cfg.newMem k construct pd s) := by
  have owned : s.Owned (.space (spaceOf k) pd) := member
  obtain ⟨answer, s₁, done, new⟩ := (Ledger.refl wf).new wf owned
  have kept := (Kept.refl cfg s).frame new.frame
  unfold Config.newMem
  rw [done, State.reserve_append, ← new.given, ← new.mem, (State.reserve_one 0 s₁.mem).1]
  cases answer with
  | none =>
      refine ⟨fun e s' failed => ?_, fun o s' made => ?_⟩
      · obtain ⟨-, rfl⟩ := Prod.mk.inj (Option.some.inj failed)
        exact ⟨by simp, (new.failed rfl).2, kept, new.pds⟩
      · cases made
  | some o =>
      obtain ⟨-, slab, ledger⟩ := new.made o rfl
      obtain ⟨cpus, same⟩ := constructs o s₁
      dsimp only
      rw [same, Config.clearRoots]
      dsimp only
      -- the roots are cleared, and no other page table has them
      have empty : State.load { s₁.mem with mem := Function.update s₁.mem.mem (BitVec.ofNat 64 o) fun _ => 0#64 }
          (cfg.ptab k o 0).root = 0#64 := by
        show Function.update s₁.mem.mem _ (fun _ => 0#64) _ _ = _
        rw [show (cfg.ptab k o 0).root.1 = BitVec.ofNat 64 o from rfl, Function.update_self]
      have clear : ∀ m : State, m.mem = Function.update s₁.mem.mem (BitVec.ofNat 64 o) (fun _ => 0#64) →
          Kept cfg s { s₁ with cpus, mem := m } := fun m tables => { kept with
        mappings := fun k' o' i x space =>
          ((translation_congr _ (m := { s₁.mem with mem := _ }) tables x).trans
            (translation_clear wf ledger owned space i s₁.mem x)).trans (kept.mappings k' o' i x space) }
      rw [Pagetable.rootInit_empty (Fmt.lawful _).lev_pos empty ledger.alone, State.alloc_eq,
        State.allocBlock_write 0 s₁.mem (Function.update _ _ _)]
      cases answered : s₁.mem.allocBlock 0 with
      | mk page mem =>
          obtain ⟨supply, ⟨rfl, rfl⟩ | ⟨page, rfl, -, rfl⟩⟩ := State.allocBlock_cases answered
          · -- no memory for the table: the object is destroyed
            dsimp only
            have left : Ledger [⟨.space (spaceOf k) pd, o, slab⟩] [] s { s₁ with cpus, mem := { s₁.mem with
              supply, mem := Function.update s₁.mem.mem (BitVec.ofNat 64 o) fun _ => 0#64 } } :=
              ledger.congr (fun _ _ => rfl) rfl rfl
            obtain ⟨s₂, deleted, pds, frame, ledger₂⟩ := left.delete wf owned (List.forall_mem_nil _)
            rw [deleted]
            refine ⟨fun e s' failed => ?_, fun o' s' made => ?_⟩
            · obtain ⟨-, rfl⟩ := Prod.mk.inj (Option.some.inj failed)
              refine ⟨by simp, ledger₂, (clear _ rfl).frame frame, ?_⟩
              rw [pds, new.pds, List.erase_of_not_mem (ledger.fresh_pd wf owned)]
            · cases made
          · dsimp only
            refine ⟨fun e s' failed => ?_, fun o' s' made => ?_⟩
            · cases failed
            · obtain ⟨given, result⟩ := Prod.mk.inj (Option.some.inj made)
              obtain rfl := Except.ok.inj given
              have taken : Ledger [⟨.space (spaceOf k) pd, o, slab⟩] (blockPages 0 page ++ []) s s' :=
                ledger.took (by subst result; rfl) (by subst result; rfl) (by subst result; exact ledger.alone)
              have pds : s'.pds = s.pds := by subst result; exact new.pds
              have caps : s'.caps = s.caps := by subst result; exact new.frame.caps
              exact ⟨taken.wf wf pds, by rw [pds, List.erase_of_not_mem (ledger.fresh_pd wf owned)], slab, [], _, taken,
                List.forall_mem_nil _, Or.inl ⟨rfl, by rw [State.blockPages_zero]; exact List.cons_ne_nil _ _, caps⟩⟩

/-! ### Spaces with a bitmap -/

/-- What a constructor does, for the account -/
structure Builds (s s' : Heap) : Prop where
  grows : s.mem.Grows s'.mem
  cache : s'.cache = s.cache
  pds : s'.pds = s.pds
  caps : s'.caps = s.caps

theorem makes_bitmap {k : SpaceKind} {order : Nat} {construct : Word → Heap → Heap} {pd : Nat} (wf : s.WF cfg)
    (member : pd ∈ s.pds) (builds : ∀ page s', s'.mem.race = [] → Builds s' (construct page s')) :
    Makes cfg ((s.mem.reserve (order :: s.needs (.space k pd))).1 = true) (.space k pd) s
      (Config.newBitmap k order construct pd s) := by
  have owned : s.Owned (.space k pd) := member
  unfold Config.newBitmap State.reserve
  cases done : s.newBlock order with
  | mk bmp s₁ =>
      obtain ⟨cache, pds, alloc, frame, failed, given⟩ := (Ledger.refl wf).newBlock done
      have needs : s₁.needs (.space k pd) = s.needs (.space k pd) := by unfold Heap.needs; rw [cache]
      rw [alloc, ← needs]
      cases bmp with
      | none =>
          refine ⟨fun e s' failed' => ?_, fun o s' made => ?_⟩
          · obtain ⟨-, rfl⟩ := Prod.mk.inj (Option.some.inj failed')
            exact ⟨Bool.false_ne_true, failed rfl, (Kept.refl cfg s).frame frame, pds⟩
          · cases made
      | some bmp =>
          have ledger := given bmp rfl
          obtain ⟨answer, s₂, allocated, new⟩ := ledger.new wf owned
          dsimp only
          rw [allocated]
          have reserved : s₁.mem.reserve (s₁.needs (.space k pd)) = (answer.isSome, s₂.mem) := Prod.ext new.given.symm new.mem.symm
          rw [reserved]
          cases answer with
          | none =>
              refine ⟨fun e s' failed' => ?_, fun o s' made => ?_⟩
              · obtain ⟨-, rfl⟩ := Prod.mk.inj (Option.some.inj failed')
                exact ⟨Bool.false_ne_true, (new.failed rfl).2.deleteBlock,
                  (((Kept.refl cfg s).frame frame).frame new.frame).frame (frame_deleteBlock _ _ _), new.pds.trans pds⟩
              · cases made
          | some o =>
              refine ⟨fun e s' failed' => ?_, fun o' s' made => ?_⟩
              · cases failed'
              · obtain ⟨given', rfl⟩ := Prod.mk.inj (Option.some.inj made)
                obtain rfl := Except.ok.inj given'
                obtain ⟨-, slab, ledger⟩ := new.made o rfl
                have built := builds bmp s₂ ledger.alone
                obtain ⟨Y, taken⟩ := ledger.grows built.cache built.grows
                have pds' := built.pds.trans (new.pds.trans pds)
                refine ⟨taken.wf wf pds', by rw [pds', List.erase_of_not_mem (ledger.fresh_pd wf owned)], slab, [], _, taken,
                  List.forall_mem_nil _, Or.inl ⟨rfl, fun empty => ?_, built.caps.trans (new.frame.caps.trans frame.caps)⟩⟩
                exact State.blockPages_ne order bmp (List.append_eq_nil_iff.mp (List.append_eq_nil_iff.mp empty).2).1

/-! ### Constructors of an Ec -/

theorem Builds.refl (alone : s.mem.race = []) : Builds s s := ⟨.refl alone, rfl, rfl, rfl⟩

theorem Builds.trans {s' s'' : Heap} (first : Builds s s') (second : Builds s' s'') : Builds s s'' where
  grows := first.grows.trans second.grows
  cache := second.cache.trans first.cache
  pds := second.pds.trans first.pds
  caps := second.caps.trans first.caps

theorem builds_map (hst : Nat) (v p : Word) (ord : Nat) (pm : Permissions) (alone : s.mem.race = []) :
    Builds s (cfg.map hst v p ord pm s) := ⟨Pagetable.grows_update alone, rfl, rfl, rfl⟩

theorem grows_shareFromMaster {T : Pagetable} {v e : Word} {m m' : State} (alone : m.race = [])
    (done : cfg.shareFromMaster T v e m = some m') : m.Grows m' := by
  unfold Config.shareFromMaster at done
  dsimp only at done
  -- the invariant of the loop
  have loop : ∀ (l : List Nat) (f : State → Nat → Option State), (∀ m i m', m.race = [] → f m i = some m' → m.Grows m') →
      ∀ m m', m.race = [] → l.foldlM f m = some m' → m.Grows m' := by
    intro l f step
    induction l with
    | nil =>
        rintro m m' alone done
        obtain rfl := Option.some.inj done
        exact .refl alone
    | cons i rest ih =>
        intro m m' alone done
        obtain ⟨m₁, first, last⟩ := Option.bind_eq_some_iff.mp done
        have grows := step m i m₁ alone first
        exact grows.trans (ih m₁ m' grows.alone last)
  refine loop _ _ (fun m i m' alone step => ?_) m m' alone done
  obtain ⟨⟨b, m₁⟩, shared, rfl⟩ := Option.map_eq_some_iff.mp step
  exact Pagetable.grows_shareFrom alone shared

theorem builds_init {hst : Nat} {cpu : Fin numCpu} {s' : Heap} (alone : s.mem.race = [])
    (done : cfg.init hst cpu s = some s') : Builds s s' := by
  unfold Config.init at done
  split at done
  · obtain rfl := Option.some.inj done
    exact .refl alone
  · dsimp only at done
    split at done
    · cases done
    · rename_i b mem shared
      obtain ⟨mem', shared', rfl⟩ := Option.map_eq_some_iff.mp done
      have grows := Pagetable.grows_shareFrom alone shared
      exact ⟨grows.trans (grows_shareFromMaster grows.alone shared'), rfl, rfl, rfl⟩

theorem builds_getPtab (hst : Nat) (cpu : Fin numCpu) (alone : s.mem.race = []) : Builds s (cfg.getPtab hst cpu s).2 := by
  unfold Config.getPtab
  cases done : (cfg.loc hst cpu).rootInit s.mem with
  | mk p mem =>
      have grows : s.mem.Grows mem := Pagetable.grows_walk alone done
      cases p <;> exact ⟨grows, rfl, rfl, rfl⟩

theorem builds_assertPtab {hst : Nat} {cpu : Fin numCpu} {s' : Heap} (alone : s.mem.race = [])
    (done : cfg.assertPtab hst cpu s = some s') : Builds s s' := by
  unfold Config.assertPtab at done
  have built : Builds s (cfg.getPtab hst cpu s).2 := builds_getPtab hst cpu alone
  split at done
  · split at done
    · cases done
    · rename_i same
      obtain rfl := Option.some.inj done
      rwa [same] at built
  · obtain rfl := Option.some.inj done
    exact .refl alone

theorem builds_thread {hst : Nat} {cpu : Fin numCpu} {a utcb : Word} {s' : Heap} (alone : s.mem.race = [])
    (done : cfg.constructThread hst cpu a utcb s = some s') : Builds s s' := by
  unfold Config.constructThread at done
  cases first : cfg.init hst cpu s with
  | none =>
      rw [first] at done
      cases done
  | some s₁ =>
      have built := builds_init alone first
      rw [first] at done
      dsimp only at done
      cases second : cfg.assertPtab hst cpu s₁ with
      | none =>
          rw [second] at done
          cases done
      | some s₂ =>
          have built := built.trans (builds_assertPtab built.grows.alone second)
          rw [second] at done
          obtain rfl := Option.some.inj done
          exact built.trans (builds_map hst a utcb 0 _ built.grows.alone)

theorem builds_vmx {hst : Nat} {cpu : Fin numCpu} {s' : Heap} (alone : s.mem.race = [])
    (done : cfg.constructVmx hst cpu s = some s') : Builds s s' := by
  unfold Config.constructVmx at done
  cases first : cfg.init hst cpu s with
  | none =>
      rw [first] at done
      cases done
  | some s₁ =>
      have built := builds_init alone first
      rw [first] at done
      obtain ⟨s₂, second, rfl⟩ := Option.map_eq_some_iff.mp done
      have built := built.trans (builds_assertPtab built.grows.alone second)
      exact built.trans (builds_getPtab hst cpu built.grows.alone)

/-! ### Threads and virtual CPUs -/

/-- An attempt gets the page and the buffer, or it takes nothing. -/
inductive Attempts (s s₁ : Heap) (B : List Held) (on ready : Bool) : Option Nat → Heap → Prop
  | failed (s' : Heap) (ledger : Ledger B [] s s') (frame : Frame s₁ s') (cache : s'.cache = s₁.cache) (pds : s'.pds = s₁.pds)
      (short : ready = true → (if on then s₁.mem.reserve s₁.needsEc else (false, s₁.mem)) = (false, s'.mem)) :
      Attempts s s₁ B on ready none s'
  | made (ec : Nat) (s' : Heap) (slab X : List Word) (ledger : Ledger (⟨.ec, ec, slab⟩ :: B) X s s') (held : X ≠ [])
      (pds : s'.pds = s₁.pds) (caps : s'.caps = s₁.caps) (enough : on = true ∧ ready = true ∧ (s₁.mem.reserve s₁.needsEc).1 = true) :
      Attempts s s₁ B on ready (some ec) s'

theorem attempts {s₁ s' : Heap} {B : List Held} {on ready : Bool} {construct : Word → Heap → Option Heap} {answer : Option Nat}
    (wf : s.WF cfg) (ledger : Ledger B [] s s₁)
    (builds : ∀ page s' s'', s'.mem.race = [] → construct page s' = some s'' → Builds s' s'')
    (done : (if on then Config.attempt ready construct s₁ else some (none, s₁)) = some (answer, s')) :
    Attempts s s₁ B on ready answer s' := by
  cases on with
  | false =>
      obtain ⟨rfl, rfl⟩ := Prod.mk.inj (Option.some.inj done)
      exact .failed s₁ ledger (.refl s₁) rfl rfl fun _ => rfl
  | true =>
  rw [if_pos rfl, Config.attempt] at done
  cases first : s₁.newBlock 0 with
  | mk page s₂ =>
      obtain ⟨cache, pds, alloc, frame, failed, given⟩ := ledger.newBlock first
      have needs : s₂.needs .ec = s₁.needs .ec := by unfold Heap.needs; rw [cache]
      have reserve : s₁.mem.reserve s₁.needsEc = s₁.mem.reserve (0 :: s₂.needs .ec) := by rw [needs]; rfl
      rw [State.reserve, alloc] at reserve
      rw [first] at done
      cases page with
      | none =>
          obtain ⟨rfl, rfl⟩ := Prod.mk.inj (Option.some.inj done)
          exact .failed s₂ (failed rfl) frame cache pds fun _ => (if_pos rfl).trans reserve
      | some page =>
          have ledger := given page rfl
          dsimp only at done reserve
          cases ready with
          | false =>
              obtain ⟨rfl, rfl⟩ := Prod.mk.inj (Option.some.inj done)
              refine .failed _ ledger.deleteBlock (frame.trans (frame_deleteBlock _ _ _)) cache pds fun ready => ?_
              cases ready
          | true =>
              obtain ⟨answer', s₃, allocated, new⟩ := ledger.new wf (c := .ec) trivial
              have reserved : s₂.mem.reserve (s₂.needs .ec) = (answer'.isSome, s₃.mem) := Prod.ext new.given.symm new.mem.symm
              rw [if_pos rfl, allocated] at done
              rw [reserved] at reserve
              cases answer' with
              | none =>
                  obtain ⟨rfl, rfl⟩ := Prod.mk.inj (Option.some.inj done)
                  exact .failed _ (new.failed rfl).2.deleteBlock ((frame.trans new.frame).trans (frame_deleteBlock _ _ _))
                    ((new.failed rfl).1.trans cache) (new.pds.trans pds) fun _ => (if_pos rfl).trans reserve
              | some ec =>
                  obtain ⟨s₄, constructed, same⟩ := Option.map_eq_some_iff.mp done
                  obtain ⟨rfl, rfl⟩ := Prod.mk.inj same
                  obtain ⟨-, slab, ledger⟩ := new.made ec rfl
                  have built := builds page s₃ s₄ ledger.alone constructed
                  obtain ⟨Y, taken⟩ := ledger.grows built.cache built.grows
                  refine .made ec s₄ slab _ taken (fun empty => ?_) (built.pds.trans (new.pds.trans pds))
                    (built.caps.trans (new.frame.caps.trans frame.caps)) ⟨rfl, rfl, by rw [reserve]; rfl⟩
                  exact State.blockPages_ne 0 page (List.append_eq_nil_iff.mp (List.append_eq_nil_iff.mp empty).2).1

/-- The area for the FPU, and that `giveUp` takes it back -/
structure Area (pd : Nat) (fpu : Bool) (B : List Held) (s : Heap) (f : Option Nat) (s₁ : Heap) : Prop where
  ledger : Ledger B [] s s₁
  only : ∀ h ∈ B, h.cache ≠ .ec
  frame : Frame s s₁
  pds : s₁.pds = s.pds
  needs : s₁.needsEc = s.needsEc
  reserve : s.mem.reserve (s.needsFpu pd fpu) = (!fpu || f.isSome, s₁.mem)
  back : ∀ s', Ledger B [] s s' → s'.pds = s.pds →
    ∃ s'', Config.giveUp pd f s' = some (.error .insMem, s'') ∧ Ledger [] [] s s'' ∧ Frame s' s'' ∧ s''.pds = s.pds

theorem area {pd : Nat} (wf : s.WF cfg) (member : pd ∈ s.pds) (fpu : Bool) :
    ∃ f s₁ B, Config.newFpu pd fpu s = some (f, s₁) ∧ Area pd fpu B s f s₁ := by
  have nothing : ∀ s', Ledger [] [] s s' → s'.pds = s.pds →
      ∃ s'', Config.giveUp pd none s' = some (.error .insMem, s'') ∧ Ledger [] [] s s'' ∧ Frame s' s'' ∧ s''.pds = s.pds :=
    fun s' ledger pds => ⟨s', rfl, ledger, .refl s', pds⟩
  cases fpu with
  | false =>
      exact ⟨none, s, [], rfl, .refl wf, List.forall_mem_nil _, .refl s, rfl, rfl, rfl, nothing⟩
  | true =>
      have owned : s.Owned (.fpu pd) := member
      obtain ⟨f, s₁, done, new⟩ := (Ledger.refl wf).new wf owned
      have needs : s₁.needsEc = s.needsEc := by
        obtain ⟨d, cache⟩ := new.cache
        have other : Cache.ec ≠ .fpu pd := Cache.noConfusion
        unfold Heap.needsEc Heap.needs
        rw [cache, Function.update_of_ne other]
      have reserve : s.mem.reserve (s.needsFpu pd true) = (f.isSome, s₁.mem) := Prod.ext new.given.symm new.mem.symm
      cases f with
      | none =>
          exact ⟨none, s₁, [], done, (new.failed rfl).2, List.forall_mem_nil _, new.frame, new.pds, needs, reserve, nothing⟩
      | some f =>
          obtain ⟨-, slab, ledger⟩ := new.made f rfl
          refine ⟨some f, s₁, [⟨.fpu pd, f, slab⟩], done, ledger, ?_, new.frame, new.pds, needs, reserve, fun s' held pds => ?_⟩
          · exact List.forall_mem_singleton.mpr Cache.noConfusion
          · obtain ⟨s'', deleted, erased, frame, ledger'⟩ := held.delete wf owned (List.forall_mem_nil _)
            refine ⟨s'', ?_, ledger', frame, ?_⟩
            · show (s'.delete (.fpu pd) f).map _ = _
              rw [deleted]
              rfl
            · rw [erased, pds, List.erase_of_not_mem (held.fresh_pd wf owned)]

section Ends

variable {spends : Prop} {pd : Nat} {fpu : Bool} {B : List Held} {f : Option Nat} {s₁ s₂ : Heap}

theorem makes_none {c : Cache} : Makes cfg spends c s none :=
  ⟨fun _ _ failed => absurd failed.symm (Option.some_ne_none _), fun _ _ made => absurd made.symm (Option.some_ne_none _)⟩

/-- A check of the arguments failed. -/
theorem makes_refused {c : Cache} {e : Status} (wf : s.WF cfg) (little : ¬ spends) : Makes cfg spends c s (some (.error e, s)) := by
  refine ⟨fun e s' failed => ?_, fun o s' made => ?_⟩
  · obtain ⟨-, rfl⟩ := Prod.mk.inj (Option.some.inj failed)
    exact ⟨little, .refl wf, .refl cfg s, rfl⟩
  · cases made

theorem Area.makes_giveUp (area : Area pd fpu B s f s₁) (ledger : Ledger B [] s s₂) (frame : Frame s s₂) (pds : s₂.pds = s.pds)
    (little : ¬ spends) : Makes cfg spends .ec s (Config.giveUp pd f s₂) := by
  obtain ⟨s₃, gave, ledger', frame', pds'⟩ := area.back s₂ ledger pds
  rw [gave]
  refine ⟨fun e s' failed => ?_, fun o s' made => ?_⟩
  · obtain ⟨-, rfl⟩ := Prod.mk.inj (Option.some.inj failed)
    exact ⟨little, ledger', ((Kept.refl cfg s).frame frame).frame frame', pds'⟩
  · cases made

theorem Area.makes_ec {ec : Nat} {slab X : List Word} (wf : s.WF cfg) (area : Area pd fpu B s f s₁)
    (ledger : Ledger (⟨.ec, ec, slab⟩ :: B) X s s₂) (held : X ≠ []) (pds : s₂.pds = s.pds) (caps : s₂.caps = s.caps)
    (much : spends) : Makes cfg spends .ec s (some (.ok ec, s₂)) := by
  refine ⟨fun e s' failed => ?_, fun o s' made => ?_⟩
  · cases failed
  · obtain ⟨given, rfl⟩ := Prod.mk.inj (Option.some.inj made)
    obtain rfl := Except.ok.inj given
    refine ⟨ledger.wf wf pds, ?_, slab, B, X, ledger, area.only, Or.inl ⟨much, held, caps⟩⟩
    rw [pds, List.erase_of_not_mem (ledger.fresh_pd wf (c := .ec) trivial)]

end Ends

theorem makes_thread {pd : Nat} {fpu : Bool} {cpu : Fin numCpu} {a : Word} (wf : s.WF cfg) (member : pd ∈ s.pds) :
    Makes cfg ((s.ptr pd .obj).isSome = true ∧ (s.ptr pd .hst).isSome = true ∧ (s.mem.reserve (s.needsFpu pd fpu)).1 = true ∧
      (s.ptr pd .pio).isSome = true ∧ ((s.mem.reserve (s.needsFpu pd fpu)).2.reserve s.needsEc).1 = true) .ec s
      (cfg.newThread pd fpu cpu a s) := by
  unfold Config.newThread
  split
  · rename_i obj hst pio hasObj hasHst hasPio
    rw [hasObj, hasHst, hasPio]
    obtain ⟨f, s₁, B, done, area⟩ := area wf member fpu
    rw [done, area.reserve, ← area.needs]
    dsimp only
    have tries : ∀ answer s', Config.attempt (!fpu || f.isSome) (cfg.constructThread hst cpu a) s₁ = some (answer, s') →
        Attempts s s₁ B true (!fpu || f.isSome) answer s' := fun answer s' attempted =>
      attempts wf area.ledger (fun page s' s'' alone => builds_thread alone) ((if_pos rfl).trans attempted)
    cases attempted : Config.attempt (!fpu || f.isSome) (cfg.constructThread hst cpu a) s₁ with
    | none => exact makes_none
    | some result =>
        obtain ⟨answer, s₂⟩ := result
        cases tries answer s₂ attempted with
        | failed _ ledger frame cache pds short =>
            refine area.makes_giveUp ledger (area.frame.trans frame) (pds.trans area.pds) ?_
            rintro ⟨-, -, ready, -, enough⟩
            have short : s₁.mem.reserve s₁.needsEc = _ := short ready
            rw [short] at enough
            cases enough
        | made ec _ slab X ledger held pds caps enough =>
            exact area.makes_ec wf ledger held (pds.trans area.pds) (caps.trans area.frame.caps)
              ⟨rfl, rfl, enough.2.1, rfl, enough.2.2⟩
  · rename_i short
    refine makes_refused wf ?_
    rintro ⟨obj, hst, -, pio, -⟩
    obtain ⟨_, obj⟩ := Option.isSome_iff_exists.mp obj
    obtain ⟨_, hst⟩ := Option.isSome_iff_exists.mp hst
    obtain ⟨_, pio⟩ := Option.isSome_iff_exists.mp pio
    exact short _ _ _ obj hst pio

/-- The second attempt is made with what the first one has left. -/
theorem makes_vcpu {pd : Nat} {fpu : Bool} {cpu : Fin numCpu} (wf : s.WF cfg) (member : pd ∈ s.pds) :
    Makes cfg ((s.ptr pd .obj).isSome = true ∧ (s.ptr pd .hst).isSome = true ∧ (s.mem.reserve (s.needsFpu pd fpu)).1 = true ∧
      cfg.VcpuMemory s (s.mem.reserve (s.needsFpu pd fpu)).2) .ec s (cfg.newVcpu pd fpu cpu s) := by
  unfold Config.newVcpu
  split
  · rename_i missing
    refine makes_refused wf ?_
    rintro ⟨-, -, -, ⟨vmx, -⟩ | ⟨svm, -⟩⟩
    · simp [vmx] at missing
    · simp [svm] at missing
  · split
    · rename_i obj hst hasObj hasHst
      rw [hasObj, hasHst]
      obtain ⟨f, s₁, B, done, area⟩ := area wf member fpu
      rw [done, area.reserve]
      dsimp only
      split
      · exact makes_none
      · rename_i ec s₂ attempted
        cases attempts wf area.ledger (fun _ s' s'' alone => builds_vmx alone) attempted with
        | made ec _ slab X ledger held pds caps enough =>
            rw [area.needs] at enough
            exact area.makes_ec wf ledger held (pds.trans area.pds) (caps.trans area.frame.caps)
              ⟨rfl, rfl, enough.2.1, Or.inl ⟨enough.1, enough.2.2⟩⟩
      · rename_i s₂ attempted
        cases attempts wf area.ledger (fun _ s' s'' alone => builds_vmx alone) attempted with
        | failed _ ledger frame cache pds short =>
            have needs : s₂.needsEc = s.needsEc := by
              rw [← area.needs]
              unfold Heap.needsEc Heap.needs
              rw [cache]
            rw [area.needs] at short
            -- what the first attempt has left
            have left : (!fpu || f.isSome) = true → (if cfg.vmx then (s₁.mem.reserve s.needsEc).2 else s₁.mem) = s₂.mem :=
              fun ready => (apply_ite Prod.snd _ _ _).symm.trans (congrArg Prod.snd (short ready))
            have kept : ∀ (page : Word) (s' s'' : Heap), s'.mem.race = [] → some s' = some s'' → Builds s' s'' :=
              fun _ s' s'' alone same => Option.some.inj same ▸ Builds.refl alone
            split
            · exact makes_none
            · rename_i ec s₃ attempted'
              cases attempts wf ledger kept attempted' with
              | made ec _ slab X ledger held pds' caps enough =>
                  refine area.makes_ec wf ledger held (pds'.trans (pds.trans area.pds))
                    (caps.trans (frame.caps.trans area.frame.caps)) ⟨rfl, rfl, enough.2.1, Or.inr ⟨enough.1, ?_⟩⟩
                  rw [needs] at enough
                  rw [left enough.2.1]
                  exact enough.2.2
            · rename_i s₃ attempted'
              cases attempts wf ledger kept attempted' with
              | failed _ ledger' frame' cache' pds' short' =>
                  refine area.makes_giveUp ledger' ((area.frame.trans frame).trans frame') (pds'.trans (pds.trans area.pds)) ?_
                  rw [needs] at short'
                  rintro ⟨-, -, ready, ⟨vmx, enough⟩ | ⟨svm, enough⟩⟩
                  · rw [if_pos vmx] at short
                    rw [short ready] at enough
                    cases enough
                  · rw [if_pos svm] at short'
                    rw [left ready, short' ready] at enough
                    cases enough
    · rename_i short
      refine makes_refused wf ?_
      rintro ⟨obj, hst, -⟩
      obtain ⟨_, obj⟩ := Option.isSome_iff_exists.mp obj
      obtain ⟨_, hst⟩ := Option.isSome_iff_exists.mp hst
      exact short _ _ obj hst

end Factories

end Creation

end Nova.Kernel
