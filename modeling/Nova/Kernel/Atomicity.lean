/-
# Nova.Kernel.Atomicity — creations of kernel objects, one after the other

A call of `Pd::create_*` meets whatever earlier calls have left, those that failed
and those that leaked pages included.

* `ends_of_create` says how each of the functions ends, from what its factory
  promises.
* `creation_atomic`: a call is atomic exactly if it does not get as far as an object
  with pages of its own, or if its capability can be inserted; the pages of capability
  tables are not counted.
* `creations_apart`: over every run of calls, no two objects overlap and every slab is
  a page in use.
-/
import Nova.Kernel.Creation

namespace Nova.Kernel.Creation

open Nova.Theory.Words
open Nova.Theory.Runs
open Syscall (SpaceKind)
open Attach (Kind)

set_option autoImplicit false

/-! ## The calls -/

section Calls

variable {cfg : Config} {t : Target} {s s' : Heap} {r : Except Status Nat}

/-- To take the bit that is set, or to take one and give it back, changes nothing. -/
theorem attach_back (x : BitVec 32) (k : Kind) :
    (x &&& k.bit = 0#32 → (x ||| k.bit) &&& ~~~ k.bit = x) ∧ (x &&& k.bit ≠ 0#32 → x ||| k.bit = x) := by
  have small : k.subtype < 32 := by cases k <;> decide
  have single : ∀ i, k.bit.getLsbD i = decide (k.subtype = i) := fun i => by
    rw [Kind.bit, ← BitVec.twoPow_eq, BitVec.getLsbD_twoPow, decide_eq_true small, Bool.true_and]
  constructor
  · intro clear
    have clear := (Attach.attach_iff x k).mp clear
    apply BitVec.eq_of_getLsbD_eq
    intro i below
    rw [BitVec.getLsbD_and, BitVec.getLsbD_or, BitVec.getLsbD_not, single, decide_eq_true below]
    by_cases same : k.subtype = i
    · rw [← same, clear]
      simp
    · simp [same]
  · intro set
    have set : x.getLsbD k.subtype = true := by
      rw [← Bool.not_eq_false]
      exact fun clear => set ((Attach.attach_iff x k).mpr clear)
    apply BitVec.eq_of_getLsbD_eq
    intro i below
    rw [BitVec.getLsbD_or, single]
    by_cases same : k.subtype = i
    · rw [← same, set]
      rfl
    · simp [same]

/-- What differs in the fields of one PD -/
theorem Restored.detach {s₁ : Heap} {pd : Nat} {k : Kind} (back : Restored cfg s₁ s')
    (attached : s₁ = (s.attach pd k).2) (clear : s.spaces pd &&& k.bit = 0#32) : Restored cfg s (s'.detach pd k) := by
  subst attached
  refine ⟨⟨fun pd' member => ?_, back.pointers, back.capabilities, back.mappings⟩, back.pages, back.buffers, back.slabs⟩
  have same := back.attached pd' member
  by_cases this : pd' = pd
  · subst this
    have taken : (s.attach pd' k).2.spaces pd' = s.spaces pd' ||| k.bit := Function.update_self _ _ _
    have given : (s'.detach pd' k).spaces pd' = s'.spaces pd' &&& ~~~ k.bit := Function.update_self _ _ _
    rw [given, same, taken]
    exact (attach_back _ k).1 clear
  · have other : (s.attach pd k).2.spaces pd' = s.spaces pd' := Function.update_of_ne this _ _
    exact (Function.update_of_ne this _ _).trans (same.trans other)

/-- A state that differs in fields that no account and no page table depends on -/
theorem Restored.congr_left {s₁ : Heap} (back : Restored cfg s₁ s') (spaces : ∀ pd ∈ s.pds, s₁.spaces pd = s.spaces pd)
    (ptr : s₁.ptr = s.ptr) (mem : s₁.mem = s.mem) (cache : s₁.cache = s.cache) (pds : s₁.pds = s.pds) (caps : s₁.caps = s.caps) :
    Restored cfg s s' := by
  obtain ⟨_, _, _, _, _, _, _⟩ := s
  subst mem cache pds ptr caps
  exact ⟨⟨fun pd member => (back.attached pd member).trans (spaces pd member), back.pointers, back.capabilities, back.mappings⟩,
    back.pages, back.buffers, back.slabs⟩

theorem Ends.once {k : Kind} {pd : Nat} {create : Heap → Outcome} {spends : Prop} (wf : s.WF cfg)
    (ends : ∀ s₁, s₁ = (s.attach pd k).2 → s₁.WF cfg → ∀ r s', create s₁ = some (r, s') → Ends cfg t spends s₁ r s' ∧ s'.WF cfg)
    (done : once k pd create s = some (r, s')) :
    Ends cfg t (s.spaces pd &&& k.bit = 0#32 ∧ spends) s r s' ∧ s'.WF cfg := by
  have wf₁ : (s.attach pd k).2.WF cfg := wf.congr rfl rfl rfl
  unfold Creation.once at done
  by_cases clear : s.spaces pd &&& k.bit = 0#32
  · have free : s.attach pd k = (true, (s.attach pd k).2) := Prod.ext (decide_eq_true clear) rfl
    rw [free] at done
    dsimp only at done
    cases created : create (s.attach pd k).2 with
    | none =>
        rw [created] at done
        cases done
    | some result =>
        obtain ⟨r₁, s₁⟩ := result
        obtain ⟨ends, wf'⟩ := ends _ rfl wf₁ r₁ s₁ created
        rw [created] at done
        cases ends with
        | inserted o _ can =>
            obtain ⟨rfl, rfl⟩ := Prod.mk.inj (Option.some.inj done)
            exact ⟨.inserted o _ fun much => can much.2, wf'.congr rfl rfl rfl⟩
        | restored e _ little back =>
            obtain ⟨rfl, rfl⟩ := Prod.mk.inj (Option.some.inj done)
            exact ⟨.restored e _ (fun much => little much.2) (back.detach rfl clear), wf'.congr rfl rfl rfl⟩
        | leaked e _ much cannot lost =>
            obtain ⟨rfl, rfl⟩ := Prod.mk.inj (Option.some.inj done)
            exact ⟨.leaked e _ ⟨clear, much⟩ cannot lost, wf'.congr rfl rfl rfl⟩
  · have taken : s.attach pd k = (false, (s.attach pd k).2) := Prod.ext (decide_eq_false clear) rfl
    rw [taken] at done
    obtain ⟨rfl, rfl⟩ := Prod.mk.inj (Option.some.inj done)
    refine ⟨.restored _ _ (fun much => clear much.1) ?_, wf₁⟩
    refine ⟨⟨fun pd' _ => ?_, fun _ _ => rfl, fun _ _ => rfl, fun _ _ _ _ _ => rfl⟩, .refl _, fun _ _ => .refl _,
      fun _ _ => .refl _⟩
    by_cases this : pd' = pd
    · subst this
      exact (Function.update_self _ _ _).trans ((attach_back _ k).2 clear)
    · exact Function.update_of_ne this _ _

/-- `create_pio` goes on without the bit. -/
theorem ends_pio {pd : Nat} (wf : s.WF cfg) (member : pd ∈ s.pds) (done : cfg.createPio pd t s = some (r, s')) :
    Ends cfg t (cfg.Spends s (.pio pd)) s r s' ∧ s'.WF cfg := by
  have wf₁ : (s.attach pd .pio).2.WF cfg := wf.congr rfl rfl rfl
  have makes : Makes cfg (cfg.Spends s (.pio pd)) (.space .pio pd) (s.attach pd .pio).2
      (cfg.newPio pd (s.attach pd .pio).1 (s.attach pd .pio).2) := by
    unfold Config.newPio
    split
    · rename_i missing
      refine makes_refused wf₁ fun much => ?_
      have missing : s.ptr pd .hst = none := missing
      rw [Config.Spends, missing] at much
      cases much.1
    · rename_i hst present
      have builds : ∀ (bmp : Word) (s' : Heap), s'.mem.race = [] →
          Builds s' (if (s.attach pd .pio).1 then cfg.map hst mmapSpc bmp 1 { r := true } s' else s') := by
        intro bmp s' alone
        split
        · exact builds_map _ _ _ _ _ alone
        · exact .refl alone
      have same : cfg.Spends s (.pio pd) = ((s.mem.reserve (1 :: s.needs (.space .pio pd))).1 = true) := by
        have present : s.ptr pd .hst = some hst := present
        rw [Config.Spends, present]
        exact propext ⟨And.right, fun much => ⟨rfl, much⟩⟩
      rw [same]
      exact makes_bitmap wf₁ member builds
  have owned : (s.attach pd .pio).2.Owned (.space .pio pd) := member
  unfold Config.createPio at done
  dsimp only at done
  cases settled : settle t Perm.definedPio (.space .pio pd) (cfg.newPio pd (s.attach pd .pio).1 (s.attach pd .pio).2) with
  | none =>
      rw [settled] at done
      cases done
  | some result =>
      obtain ⟨r₁, s₁⟩ := result
      obtain ⟨ends, wf'⟩ := makes.settle wf₁ owned settled
      rw [settled] at done
      cases ends with
      | inserted o _ can =>
          obtain ⟨rfl, rfl⟩ := Prod.mk.inj (Option.some.inj done)
          refine ⟨.inserted o _ can, ?_⟩
          split
          · exact wf'.congr rfl rfl rfl
          · exact wf'
      | restored e _ little back =>
          obtain ⟨rfl, rfl⟩ := Prod.mk.inj (Option.some.inj done)
          split
          · rename_i clear
            exact ⟨.restored e _ little (back.detach rfl (of_decide_eq_true clear)), wf'.congr rfl rfl rfl⟩
          · rename_i set
            refine ⟨.restored e _ little (back.congr_left (fun pd' _ => ?_) rfl rfl rfl rfl rfl), wf'⟩
            have set : s.spaces pd &&& Kind.pio.bit ≠ 0#32 := fun clear => set (decide_eq_true clear)
            by_cases this : pd' = pd
            · subst this
              exact (Function.update_self _ _ _).trans ((attach_back _ .pio).2 set)
            · exact Function.update_of_ne this _ _
      | leaked e _ much cannot lost =>
          obtain ⟨rfl, rfl⟩ := Prod.mk.inj (Option.some.inj done)
          split
          · exact ⟨.leaked e _ much cannot lost, wf'.congr rfl rfl rfl⟩
          · exact ⟨.leaked e _ much cannot lost, wf'⟩

/-- How each of the functions ends -/
theorem ends_of_create {call : Call} (wf : s.WF cfg) (legal : s.Legal call) (done : cfg.create t s call = some (r, s')) :
    Ends cfg t (cfg.Spends s call) s r s' ∧ s'.WF cfg := by
  match call, legal, done with
  | .pd prm, _, done => exact (makes_pd wf).settle wf (c := .pd) trivial done
  | .sc, _, done => exact (makes_simple wf (c := .sc) trivial).settle wf (c := .sc) trivial done
  | .pt, _, done => exact (makes_simple wf (c := .pt) trivial).settle wf (c := .pt) trivial done
  | .sm id, _, done => exact (makes_simple wf (c := .sm) trivial).settle wf (c := .sm) trivial done
  | .obj pd, legal, done =>
      have ends : Ends cfg t (s.spaces pd &&& Kind.obj.bit = 0#32 ∧ False) s r s' ∧ s'.WF cfg :=
        Ends.once wf (fun s₁ same wf₁ r s' created => by
          subst same
          have member : pd ∈ (s.attach pd .obj).2.pds := legal
          exact (makes_obj wf₁ member).settle wf₁ (c := .space .obj pd) legal created) done
      rwa [and_false] at ends
  | .hst pd, legal, done =>
      exact Ends.once wf (fun s₁ same wf₁ r s' created => by
        subst same
        exact (makes_mem (k := .hst) wf₁ legal fun o s' => ⟨_, rfl⟩).settle wf₁ (c := .space .hst pd) legal created) done
  | .gst pd, legal, done =>
      exact (makes_mem (k := .gst) wf legal fun o s' => ⟨_, rfl⟩).settle wf (c := .space .gst pd) legal done
  | .dma pd, legal, done =>
      exact (makes_mem (k := .dma) wf legal fun o s' => ⟨_, rfl⟩).settle wf (c := .space .dma pd) legal done
  | .msr pd, legal, done =>
      exact (makes_bitmap wf legal fun page s' alone => .refl alone).settle wf (c := .space .msr pd) legal done
  | .pio pd, legal, done => exact ends_pio wf legal done
  | .ec pd flg cpu utcb, legal, done =>
      have done : settle t Perm.definedEc .ec (if flg.getLsbD 1 then cfg.newVcpu pd (flg.getLsbD 2) cpu s
        else cfg.newThread pd (flg.getLsbD 2) cpu utcb s) = some (r, s') := done
      rw [Config.Spends]
      split at done
      · rename_i vcpu
        rw [if_pos vcpu]
        exact (makes_vcpu wf legal).settle wf (c := .ec) trivial done
      · rename_i thread
        rw [if_neg thread]
        exact (makes_thread wf legal).settle wf (c := .ec) trivial done

end Calls

/-- **Atomicity.**  A creation that fails leaves the kernel as it was, exactly if no object came about that owns pages,
or if its capability could be inserted.  The pages of capability tables are not counted: inserting allocates those. -/
theorem creation_atomic (cfg : Config) (t : Target) (s : Heap) (call : Call) (r : Except Status Nat) (s' : Heap)
    (wf : s.WF cfg) (legal : s.Legal call) (done : cfg.create t s call = some (r, s')) :
    (∀ e, r = .error e → Restored cfg s s') ↔ ¬ cfg.Spends s call ∨ Insertable t s :=
  (ends_of_create wf legal done).1.atomic_iff

/-! ## Runs of creations -/

/-- Two objects that are live at the same time do not overlap. -/
def Heap.Apart (s : Heap) : Prop :=
  ∀ c c' p p', s.Owned c → s.Owned c' → p ∈ (s.cache c).live → p' ∈ (s.cache c').live → (c, p) ≠ (c', p') →
    p + (s.cache c).bsz ≤ p' ∨ p' + (s.cache c').bsz ≤ p

/-- An object lies in a page that is in use. -/
def Heap.Paged (s : Heap) : Prop :=
  ∀ c p, s.Owned c → p ∈ (s.cache c).live →
    ∃ page ∈ s.mem.live, page.toNat ≤ p ∧ p + (s.cache c).bsz ≤ page.toNat + slabBytes

section Objects

variable {cfg : Config} {s : Heap}

/-- Buffers of one slab -/
theorem buffers_apart {c : SlabCache} {x p q : Nat} (memP : p ∈ c.buffers x) (memQ : q ∈ c.buffers x) (ne : p ≠ q)
    (fits : c.bps * c.bsz ≤ slabBytes) : p + c.bsz ≤ q ∨ q + c.bsz ≤ p := by
  obtain ⟨i, belowI, rfl⟩ := List.mem_map.mp memP
  obtain ⟨j, belowJ, rfl⟩ := List.mem_map.mp memQ
  have insideI := (Nat.mul_le_mul_right c.bsz (show i + 1 ≤ c.bps from List.mem_range.mp belowI)).trans fits
  have insideJ := (Nat.mul_le_mul_right c.bsz (show j + 1 ≤ c.bps from List.mem_range.mp belowJ)).trans fits
  have step {k l : Nat} (less : k < l) : (k + 1) * c.bsz + c.bsz ≤ (l + 1) * c.bsz := by
    rw [← Nat.succ_mul]
    exact Nat.mul_le_mul_right _ (Nat.succ_le_succ less)
  rcases Nat.lt_trichotomy i j with less | same | greater
  · have := step less
    omega
  · exact absurd (by rw [same]) ne
  · have := step greater
    omega

/-- A live buffer lies in its slab. -/
theorem Heap.WF.inside (wf : s.WF cfg) {c : Cache} {p : Nat} (owned : s.Owned c) (live : p ∈ (s.cache c).live) :
    p ∈ (s.cache c).buffers (SlabCache.fromBuffer p) ∧ (s.cache c).bps * (s.cache c).bsz ≤ slabBytes ∧
      SlabCache.fromBuffer p % slabBytes = 0 ∧ SlabCache.fromBuffer p ∈ (s.cache c).pages ∧
      SlabCache.fromBuffer p ≤ p ∧ p + (s.cache c).bsz ≤ SlabCache.fromBuffer p + slabBytes := by
  have paged := ((wf.sound c owned).pages_iff _).mpr ⟨p, live, rfl⟩
  obtain ⟨⟨P, F, shape⟩, -⟩ := wf.sound c owned
  obtain ⟨aligned, inside⟩ := shape.live_mem live
  obtain ⟨-, -, fits⟩ := shape.geometry
  have fits : (s.cache c).bps * (s.cache c).bsz ≤ 4056 := fits
  have fits : (s.cache c).bps * (s.cache c).bsz ≤ 4096 := by omega
  have below : SlabCache.fromBuffer p ≤ p := by
    unfold SlabCache.fromBuffer
    exact Nat.div_mul_le_self _ _
  refine ⟨inside, fits, aligned, paged, below, ?_⟩
  obtain ⟨i, below, place⟩ := List.mem_map.mp inside
  have high := (Nat.mul_le_mul_right (s.cache c).bsz (show i + 1 ≤ (s.cache c).bps from List.mem_range.mp below)).trans fits
  have low : (s.cache c).bsz ≤ (i + 1) * (s.cache c).bsz := Nat.le_mul_of_pos_left _ (Nat.succ_pos i)
  have place : SlabCache.fromBuffer p + 4096 - (i + 1) * (s.cache c).bsz = p := place
  show p + _ ≤ _ + 4096
  omega

theorem Heap.WF.objects (wf : s.WF cfg) : s.Apart ∧ s.Paged := by
  constructor
  · intro c c' p p' owned owned' live live' ne
    obtain ⟨inside, fits, aligned, paged, low, high⟩ := wf.inside owned live
    obtain ⟨inside', -, aligned', paged', low', high'⟩ := wf.inside owned' live'
    by_cases slab : SlabCache.fromBuffer p = SlabCache.fromBuffer p'
    · -- one slab is of one cache
      have same : c = c' := by
        by_contra other
        exact wf.apart c c' owned owned' other _ paged (by rw [slab]; exact paged')
      subst same
      rw [← slab] at inside'
      exact buffers_apart inside inside' (fun eq => ne (by rw [eq])) fits
    · have aligned : SlabCache.fromBuffer p % 4096 = 0 := aligned
      have aligned' : SlabCache.fromBuffer p' % 4096 = 0 := aligned'
      have high : p + (s.cache c).bsz ≤ SlabCache.fromBuffer p + 4096 := high
      have high' : p' + (s.cache c').bsz ≤ SlabCache.fromBuffer p' + 4096 := high'
      omega
  · intro c p owned live
    obtain ⟨-, -, -, paged, low, high⟩ := wf.inside owned live
    obtain ⟨page, used, -, value⟩ := wf.backed c owned _ paged
    exact ⟨page, used, value ▸ low, value ▸ high⟩

end Objects

/-- A call, whatever it returns -/
def Config.call (cfg : Config) (a : Target × Call) (s : Heap) : Option Heap := (cfg.create a.1 s a.2).map Prod.snd

theorem wf_runs {cfg : Config} {calls : List (Target × Call)} {s s' : Heap} (wf : s.WF cfg)
    (legal : Legal cfg.call (fun s a => s.Legal a.2) s calls) (run : runs cfg.call s calls = some s') : s'.WF cfg := by
  refine Legal.keeps (fun s a s' wf legal done => ?_) wf legal run
  obtain ⟨⟨r, s₁⟩, created, rfl⟩ := Option.map_eq_some_iff.mp done
  exact (ends_of_create wf legal created).2

/-- **Objects never overlap.**  In every run of creations, those that fail included, the live objects of all caches are
apart, and each lies in a page in use: no page that was given back is still a slab. -/
theorem creations_apart (cfg : Config) (calls : List (Target × Call)) (s s' : Heap) (wf : s.WF cfg)
    (legal : Legal cfg.call (fun s a => s.Legal a.2) s calls) (run : runs cfg.call s calls = some s') : s'.Apart ∧ s'.Paged :=
  (wf_runs wf legal run).objects

/-! ## A heap -/

/-- A machine with VMX, after boot: page 0 holds the static spaces. -/
def bootConfig : Config where
  debug := false
  vmx := true
  svm := false
  mbec := false
  lim := 27
  size _ := 1024
  fpuSize := 1024
  fits _ := by decide
  fpuFits := by decide
  nova _ := 64
  master := { format := hptX86, root := (64#64, 511) }

def bootHeap : Heap where
  mem := { mem := fun _ _ => 0#64, live := [0#64], pending := [], supply := [0x1000#64, 0x2000#64, 0x3000#64, 0x4000#64],
           race := [], obtained := [], waited := [], freed := [] }
  cache _ := SlabCache.create 0 1024 kobjectAlignment fun _ => ⟨0, none, none, [], 0⟩
  pds := []
  spaces _ := 0#32
  ptr _ _ := none
  caps _ := Caps.empty
  cpus _ _ := false

theorem wf_bootHeap : bootHeap.WF bootConfig where
  alone := rfl
  sound _ _ := SlabCache.sound_create _ _ _ _ (by decide)
  backed _ _ x member := absurd member List.not_mem_nil
  apart _ _ _ _ _ x member := absurd member List.not_mem_nil
  pds _ member := absurd member List.not_mem_nil
  fixed _ := ⟨0#64, List.mem_singleton_self _, (by decide : 0 = SlabCache.fromBuffer 64), fun _ _ => List.not_mem_nil⟩

/-- A selector of the static object space -/
def bootTarget : Target := ⟨64, 5#64, true⟩

/-- A PD is created, and its capability takes the selector. -/
def bootRun : List (Target × Call) := [(bootTarget, .pd 31#32)]

/-- The selector is taken, so the bitmap of the second object is lost. -/
theorem creation_atomic_leaks : ∃ s s', runs bootConfig.call bootHeap bootRun = some s ∧
    bootConfig.create bootTarget s (.msr 7168) = some (.error .badCap, s') ∧ ¬ Restored bootConfig s s' := by
  obtain ⟨s, s', run, done, pds, spends, occupied⟩ : ∃ s s', runs bootConfig.call bootHeap bootRun = some s ∧
      bootConfig.create bootTarget s (.msr 7168) = some (.error .badCap, s') ∧ s.pds = [7168] ∧
      (s.mem.reserve (0 :: s.needs (.space .msr 7168))).1 = true ∧ (s.caps 64).lookup 5#64 ≠ .null :=
    ⟨_, _, rfl, rfl, rfl, rfl, by rintro ⟨⟩⟩
  have allowed : Legal bootConfig.call (fun s a => s.Legal a.2) bootHeap bootRun := ⟨trivial, fun _ _ => trivial⟩
  have wf : s.WF bootConfig := wf_runs wf_bootHeap allowed run
  have legal : s.Legal (.msr 7168) := by
    show 7168 ∈ s.pds
    rw [pds]
    exact List.mem_singleton_self _
  refine ⟨s, s', run, done, fun back => ?_⟩
  have exact_ := creation_atomic bootConfig bootTarget s (.msr 7168) (.error .badCap) s' wf legal done
  rcases exact_.mp fun _ _ => back with little | can
  · exact little spends
  · exact occupied can.2

theorem creations_apart_boot : ∃ s', runs bootConfig.call bootHeap (bootRun ++ [(bootTarget, .msr 7168)]) = some s' ∧
    s'.mem.live.length = 3 ∧ s'.Apart ∧ s'.Paged := by
  obtain ⟨s', run, length⟩ : ∃ s', runs bootConfig.call bootHeap (bootRun ++ [(bootTarget, .msr 7168)]) = some s' ∧
      s'.mem.live.length = 3 := ⟨_, rfl, rfl⟩
  have allowed : Legal bootConfig.call (fun s a => s.Legal a.2) bootHeap (bootRun ++ [(bootTarget, .msr 7168)]) := by
    refine ⟨trivial, fun s first => ⟨?_, fun _ _ => trivial⟩⟩
    obtain ⟨s₁, done, pds⟩ : ∃ s, bootConfig.call (bootTarget, .pd 31#32) bootHeap = some s ∧ s.pds = [7168] := ⟨_, rfl, rfl⟩
    obtain rfl := Option.some.inj (first.symm.trans done)
    show 7168 ∈ s.pds
    rw [pds]
    exact List.mem_singleton_self _
  exact ⟨s', run, length, creations_apart bootConfig _ bootHeap s' wf_bootHeap allowed run⟩

end Nova.Kernel.Creation
