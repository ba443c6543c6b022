/-
# Nova.Kernel.Isolation — kernel memory stays out of user mappings

A `Machine` is a set of memory spaces in one memory, with `Space_hst::nova` among
them.  Its runs open and close physical memory, map kernel objects (UTCBs, the HIP)
with the `K` permission, and delegate between any spaces.

`Isolated` is the invariant: a mapping without `K` does not lead into the kernel
image, except where `user_access` opened it.  Delegations keep it because they copy
only mappings without `K`, and `user_access` because it maps one to one.  On x86
the constructor of `Space_hst::nova` starts from the boot page table, so the
invariant of the whole run rests on that table: `isolated_of_boot` assumes it of
the table, and `boot_not_isolated` shows that the one of `start.S`, which maps the
kernel image one to one without `K`, breaks it.
-/
import Nova.Theory.Runs
import Nova.Kernel.UserAccess

namespace Nova.Kernel

open Nova.Theory.Words
open Nova.Theory.Radix
open Nova.Theory.Runs

set_option autoImplicit false

/-- The memory spaces of a machine. -/
structure Machine (ι : Type) where
  arch : Arch
  kind : ι → MemKind
  ptab : ι → Pagetable
  /-- The arguments of `set_leaf_max`, for each class of page tables. -/
  limits : MemKind → List Nat
  /-- `Space_hst::nova` -/
  nova : ι
  /-- `NOVA_HPAS` -/
  hpas : Nat
  /-- `NOVA_HPAE` -/
  hpae : Nat
  format : ∀ i, (ptab i).format = (arch.fmt (kind i)).format
  host : kind nova = .hst
  image : hpas < hpae
  image_fits : hpae ≤ arch.num .hst * 2 ^ pageBits
  image_aligned : 2 ^ pageBits ∣ hpas ∧ 2 ^ pageBits ∣ hpae

/-- The state of a run, with the ranges that `user_access` opened so far. -/
structure World where
  state : State
  opened : List (Nat × Nat)

inductive MemOp (ι : Type) where
  | userAccess (i : ι) (addr size : Nat) (a : Bool) (ca : Cacheability) (sh : Shareability)
  /-- `hst->update (v, p, 0, K | pm, ca, sh)`: a UTCB or the HIP -/
  | mapKernel (i : ι) (v p : Word) (pm : Permissions) (ca : Cacheability) (sh : Shareability)
  | delegate (src dst : ι) (ssb dsb ord : Nat) (pmm : Permissions) (ca : Cacheability)
      (sh : Shareability) (junk : Nat → Cacheability × Shareability)
  | others (supply : List Word) (race : List (List (Word × Nat)))

namespace Machine

variable {ι : Type} [DecidableEq ι] (M : Machine ι)

def lim (i : ι) : Nat := (M.ptab i).format.limit (M.limits (M.kind i))

def delegation (src dst : ι) (ord : Nat) (pmm : Permissions)
    (junk : Nat → Cacheability × Shareability) : Delegation where
  source := M.ptab src
  dest := M.ptab dst
  lim := M.lim dst
  nova := decide (src = M.nova)
  ord
  pmm
  junk

def run : MemOp ι → World → World
  | .userAccess i addr size a ca sh, w =>
      { state := (M.ptab i).userAccess (M.lim i) a ca sh addr size w.state
        opened := if a then (addr, size) :: w.opened else w.opened }
  | .mapKernel i v p pm ca sh, w =>
      { w with state := ((M.ptab i).update (M.lim i) v p 0 { pm with k := true } ca sh w.state).2 }
  | .delegate src dst ssb dsb ord pmm ca sh junk, w =>
      { w with state := ((M.delegation src dst ord pmm junk).delegate M.arch (M.kind dst) ssb dsb ca sh
          w.state).2.1 }
  | .others supply race, w => { w with state := { w.state with supply, race } }

/-- What callers ensure: whole pages inside the space but not all of it, host spaces
for kernel mappings and as source, and what `sys_ctrl_pd` checks. -/
def Admissible : MemOp ι → Prop
  | .userAccess i addr size _ _ _ => M.kind i ≠ .gst ∧ 2 ^ pageBits ∣ addr ∧ 2 ^ pageBits ∣ size ∧
      addr + size ≤ M.arch.num (M.kind i) * 2 ^ pageBits ∧
      size < M.arch.num (M.kind i) * 2 ^ pageBits
  | .mapKernel i v p _ _ _ => M.kind i = .hst ∧ (M.ptab i).Request v p 0
  | .delegate src _ ssb dsb ord _ _ _ _ => M.kind src = .hst ∧ 2 ^ ord ∣ ssb ∧ 2 ^ ord ∣ dsb
  | .others _ _ => True

/-- The cacheability that `Space_hst::user_access` passes: `MEM_UC` on x86, `DEV` on
aarch64. -/
def deviceCa : Cacheability :=
  match M.arch with
  | .x86 _ => 3#3
  | .arm _ => 0#3

/-- The constructor of `Space_hst::nova`, from its boot page table on. -/
def start (boot : State) : World :=
  M.run (.userAccess M.nova M.hpae (M.arch.num .hst * 2 ^ pageBits - M.hpae) true M.deviceCa 0#2)
    (M.run (.userAccess M.nova 0 M.hpas true M.deviceCa 0#2) { state := boot, opened := [] })

/-- A physical address in the kernel image. -/
def Image (q : Word) : Prop := M.hpas ≤ q.toNat ∧ q.toNat < M.hpae

/-- An address in one of the ranges. -/
def Opened (opened : List (Nat × Nat)) (q : Word) : Prop :=
  ∃ r ∈ opened, r.1 ≤ q.toNat ∧ q.toNat < r.1 + r.2

/-- No mapping without `K` below `num` of any space leads into the kernel image,
except to what `user_access` opened. -/
def Isolated (w : World) : Prop :=
  ∀ i x q pm ca sh, x.toNat < M.arch.num (M.kind i) * 2 ^ pageBits →
    (M.ptab i).translation w.state x = some (q, pm, ca, sh) → pm.k = false → M.Image q → Opened w.opened q

end Machine

/-- Every permission of `a` is one of `b`. -/
structure Permissions.Le (a b : Permissions) : Prop where
  r : a.r = true → b.r = true
  w : a.w = true → b.w = true
  xu : a.xu = true → b.xu = true
  xs : a.xs = true → b.xs = true
  u : a.u = true → b.u = true
  k : a.k = true → b.k = true
  g : a.g = true → b.g = true
  ss : a.ss = true → b.ss = true

namespace Machine

variable {ι : Type} [DecidableEq ι] (M : Machine ι)

/-- A delegation adds no permission: every destination page is as before, or a hole,
or leads to the frame of a source page without `K`, with permissions of that page. -/
def NoAmplification (w : World) : MemOp ι → Prop
  | .delegate src dst ssb dsb ord pmm ca sh junk => ∀ x, InRange (pageAddr dsb) ord x →
      let after := (M.ptab dst).translation
        (M.run (.delegate src dst ssb dsb ord pmm ca sh junk) w).state x
      after = (M.ptab dst).translation w.state x ∨ after = none ∨
        ∃ q d pm ca' sh', after = some (q, d) ∧
          (M.ptab src).translation w.state (Delegation.sourceOf ssb dsb x) = some (q, pm, ca', sh') ∧
          pm.k = false ∧ d.1.Le pm
  | _ => True

end Machine

/-! ## Permissions -/

theorem Permissions.granted_le (pm pmm : Permissions) : (pm.granted pmm).Le pm := by
  unfold granted
  dsimp only
  split
  · exact ⟨fun h => (by cases h), fun h => (by cases h), fun h => (by cases h), fun h => (by cases h),
      fun h => (by cases h), fun h => (by cases h), fun h => (by cases h), fun h => (by cases h)⟩
  · simp only [land]
    constructor <;> intro h <;> exact (Bool.and_eq_true_iff.mp h).1

theorem Permissions.granted_kernel {pm pmm : Permissions} (kernel : pm.k = true) :
    pm.granted pmm = .none := by
  simp [granted, land, kernel]

/-- What a host format couples: read with presence and both execute permissions on
x86, the latter on aarch64 without the execute-never extension. -/
theorem stable_coupled (A : Arch) {pm : Permissions} {ca : Cacheability} {sh : Shareability}
    (stable : (A.fmt .hst).format.Stable pm ca sh) :
    match A with
    | .x86 _ => pm.r = true ∧ pm.xs = pm.xu
    | .arm xnx => xnx = false → pm.xs = pm.xu := by
  obtain ⟨ne, same, -⟩ := stable 0 (A.fmt .hst).lawful.lev_pos
  cases A with
  | x86 mbec =>
      have api := (HptX86.pageAttr_ne_zero 0 pm ca sh).mp ne
      have same : HptX86.pagePm (HptX86.pageAttr 0 pm ca sh) = pm := same
      rw [HptX86.pagePm_pageAttr 0 ca sh api] at same
      exact ⟨(congrArg Permissions.r same).symm,
        (congrArg Permissions.xs same).symm.trans (congrArg Permissions.xu same)⟩
  | arm xnx =>
      rintro rfl
      have api := (Npt.pageAttr_ne_zero false 0 pm ca sh).mp ne
      have same : Npt.pagePm (Npt.pageAttr false 0 pm ca sh) = pm := same
      rw [Npt.pagePm_pageAttr false 0 ca sh api] at same
      have hxs := congrArg Permissions.xs same
      have hxu := congrArg Permissions.xu same
      simp only [Bool.not_false, Bool.true_and] at hxs hxu
      exact hxs.symm.trans ((Bool.or_comm _ _).trans hxu)

/-- Execute permissions of a format with one execute bit. -/
theorem Permissions.Le.exec {pm pm' : Permissions} (le : pm'.Le pm) (coupled : pm.xs = pm.xu)
    (some : (pm'.xs || pm'.xu) = true) : pm.xs = true ∧ pm.xu = true := by
  rcases (Bool.or_eq_true _ _).mp some with h | h
  · exact ⟨le.xs h, coupled ▸ le.xs h⟩
  · exact ⟨coupled ▸ le.xu h, le.xu h⟩

/-- What is granted from a leaf of a host space is no more after encoding. -/
theorem encoded_le (A : Arch) (kind : MemKind) {pm pm' : Permissions} {ca ca' : Cacheability}
    {sh sh' : Shareability} (stable : (A.fmt .hst).format.Stable pm ca sh) (le : pm'.Le pm)
    (ne : (A.fmt kind).format.pageAttr 0 pm' ca' sh' ≠ 0#64) :
    ((A.fmt kind).format.encoded pm' ca' sh').1.Le pm := by
  have coupled := stable_coupled A stable
  cases A with
  | x86 mbec =>
      obtain ⟨read, exec⟩ := coupled
      cases kind with
      | hst =>
          have api := (HptX86.pageAttr_ne_zero 0 pm' ca' sh').mp ne
          show (HptX86.pagePm (HptX86.pageAttr 0 pm' ca' sh')).Le pm
          rw [HptX86.pagePm_pageAttr 0 ca' sh' api]
          exact ⟨fun _ => read, le.w, fun h => (le.exec exec h).2, fun h => (le.exec exec h).1, le.u,
            le.k, le.g, fun h => (by cases h)⟩
      | gst =>
          have api := (Ept.pageAttr_ne_zero mbec 0 pm' ca' sh').mp ne
          show (Ept.pagePm (Ept.pageAttr mbec 0 pm' ca' sh')).Le pm
          rw [Ept.pagePm_pageAttr mbec 0 ca' sh' api]
          refine ⟨fun _ => read, le.w, fun h => (le.exec exec ?_).2, fun h => (le.exec exec ?_).1,
            fun h => (by cases h), fun h => (by cases h), fun h => (by cases h), fun h => (by cases h)⟩
          · rcases (Bool.or_eq_true _ _).mp h with h | h
            · rw [h, Bool.or_true]
            · rw [(Bool.and_eq_true_iff.mp h).2, Bool.true_or]
          · rcases (Bool.or_eq_true _ _).mp h with h | h
            · rw [h, Bool.true_or]
            · rw [(Bool.and_eq_true_iff.mp h).2, Bool.or_true]
      | dma =>
          have some := (Dpt.pageAttr_ne_zero 0 pm' ca' sh').mp ne
          show (Dpt.pagePm (Dpt.pageAttr 0 pm' ca' sh')).Le pm
          rw [Dpt.pagePm_pageAttr 0 ca' sh' some]
          exact ⟨le.r, le.w, fun h => (by cases h), fun h => (by cases h), fun h => (by cases h),
            fun h => (by cases h), fun h => (by cases h), fun h => (by cases h)⟩
  | arm xnx =>
      have api := (Npt.pageAttr_ne_zero xnx 0 pm' ca' sh').mp (by cases kind <;> exact ne)
      have goal : (Npt.pagePm (Npt.pageAttr xnx 0 pm' ca' sh')).Le pm := by
        rw [Npt.pagePm_pageAttr xnx 0 ca' sh' api]
        cases xnx with
        | true =>
            refine ⟨le.r, le.w, fun h => le.xu ?_, fun h => le.xs ?_, fun h => (by cases h), le.k,
              fun h => (by cases h), fun h => (by cases h)⟩
            · simpa using h
            · simpa using h
        | false =>
            have exec := coupled rfl
            refine ⟨le.r, le.w, fun h => (le.exec exec ?_).2, fun h => (le.exec exec ?_).1,
              fun h => (by cases h), le.k, fun h => (by cases h), fun h => (by cases h)⟩
            · simpa [Bool.or_comm] using h
            · simpa using h
      cases kind <;> exact goal

/-- Kernel mappings of host spaces keep their mark. -/
theorem encoded_kernel (A : Arch) {pm : Permissions} {ca : Cacheability} {sh : Shareability}
    (kernel : pm.k = true) (ne : (A.fmt .hst).format.pageAttr 0 pm ca sh ≠ 0#64) :
    ((A.fmt .hst).format.encoded pm ca sh).1.k = true := by
  cases A with
  | x86 mbec =>
      have api := (HptX86.pageAttr_ne_zero 0 pm ca sh).mp ne
      show (HptX86.pagePm (HptX86.pageAttr 0 pm ca sh)).k = true
      rw [HptX86.pagePm_pageAttr 0 ca sh api]
      exact kernel
  | arm xnx =>
      have api := (Npt.pageAttr_ne_zero xnx 0 pm ca sh).mp ne
      show (Npt.pagePm (Npt.pageAttr xnx 0 pm ca sh)).k = true
      rw [Npt.pagePm_pageAttr xnx 0 ca sh api]
      exact kernel

/-! ## Spaces in one memory -/

namespace Machine

variable {ι : Type} (M : Machine ι)

/-- The invariant of all spaces together. -/
structure Sound (s : State) : Prop where
  wf : ∀ i, (M.ptab i).WF s
  exact_ : ∀ i, (M.ptab i).Exact s
  apart : ∀ i j, i ≠ j → (M.ptab i).Apart (M.ptab j) s
  parted : ∀ i, (M.ptab i).Parted s

/-- Every host space has its root table. -/
def Rooted (s : State) : Prop :=
  ∀ i, M.kind i = .hst → ∀ x, ((M.ptab i).find s x).1 < (M.ptab i).format.lev

variable {M} {s s' : State}

theorem lawful (M : Machine ι) (i : ι) : (M.ptab i).format.Lawful := M.format i ▸ (M.arch.fmt (M.kind i)).lawful

/-- **A step in one space** keeps the spaces sound, and every other space as it is. -/
theorem Sound.step (sound : M.Sound s) (i : ι) (frames : (M.ptab i).Frames s s')
    (wf : (M.ptab i).WF s') (exact_ : (M.ptab i).Exact s') :
    M.Sound s' ∧ ∀ j, j ≠ i → ∀ x, (M.ptab j).find s' x = (M.ptab j).find s x := by
  have tree : ∀ j, j ≠ i → (M.ptab j).tree s' = (M.ptab j).tree s := fun j ne =>
    ((sound.apart i j ne.symm).tree (sound.wf j) frames).2
  refine ⟨⟨fun j => ?_, fun j => ?_, fun j k ne => ?_, fun j => ?_⟩, fun j ne x => ?_⟩
  · by_cases same : j = i
    · exact same ▸ wf
    · exact (sound.apart i j (Ne.symm same)).wf (sound.wf j) frames
  · by_cases same : j = i
    · exact same ▸ exact_
    · exact (sound.apart i j (Ne.symm same)).exact_ (sound.wf j) (sound.exact_ j) frames
  · by_cases left : j = i
    · subst left
      exact (sound.apart j k ne).keep (sound.wf k) frames
    · by_cases right : k = i
      · subst right
        exact ((sound.apart k j ne.symm).keep (sound.wf j) frames).symm
      · have apart := sound.apart j k ne
        refine ⟨?_, ?_, ?_, apart.roots⟩
        · rw [tree j left, tree k right]
          exact apart.pages
        · rw [tree k right]
          exact apart.left
        · rw [tree j left]
          exact apart.right
  · by_cases same : j = i
    · subst same
      exact frames.parted (sound.wf j) (sound.parted j)
    · have apart := sound.apart i j (Ne.symm same)
      refine ⟨(frames.parted (sound.wf i) (sound.parted i)).live, fun page waiting inTree => ?_,
        fun waiting => ?_⟩
      · rw [tree j same] at inTree
        rcases frames.pending page waiting with before | ⟨-, -, other | fresh⟩
        · exact (sound.parted j).tree page before inTree
        · exact apart.pages page other inTree
        · exact fresh ((sound.wf j).owned page inTree)
      · rcases frames.pending _ waiting with before | ⟨-, -, other | fresh⟩
        · exact (sound.parted j).root before
        · exact apart.right other
        · exact fresh (sound.wf j).root_live
  · exact (sound.apart i j ne.symm).find (sound.wf j) frames x

/-- Reclaiming pages keeps the spaces sound. -/
theorem Sound.freeWait (sound : M.Sound s) : M.Sound s.freeWait :=
  ⟨fun i => Pagetable.freeWait_wf (sound.wf i) (sound.parted i), sound.exact_,
    fun i j ne => ⟨(sound.apart i j ne).pages, (sound.apart i j ne).left, (sound.apart i j ne).right,
      (sound.apart i j ne).roots⟩,
    fun _ => ⟨fun _ h => absurd h List.not_mem_nil, fun _ h => absurd h List.not_mem_nil,
      List.not_mem_nil⟩⟩

/-- The answers of the allocator and the windows of other CPUs do not matter. -/
theorem Sound.others (sound : M.Sound s) (supply : List Word) (race : List (List (Word × Nat))) :
    M.Sound { s with supply, race } :=
  ⟨fun i => ⟨(sound.wf i).nodup, (sound.wf i).owned, (sound.wf i).root_live, (sound.wf i).root_apart,
      (sound.wf i).leaves, (sound.wf i).root_small⟩, sound.exact_,
    fun i j ne => ⟨(sound.apart i j ne).pages, (sound.apart i j ne).left, (sound.apart i j ne).right,
      (sound.apart i j ne).roots⟩,
    fun i => ⟨(sound.parted i).live, (sound.parted i).tree, (sound.parted i).root⟩⟩

/-! ## One operation -/

theorem num_inside (M : Machine ι) (i : ι) {x : Word}
    (hx : x.toNat < M.arch.num (M.kind i) * 2 ^ pageBits) : (M.ptab i).Inside x := by
  have := (Delegation.num_le M.arch (M.kind i)).1
  rw [Pagetable.Inside, M.format i, Nat.pow_add]
  exact hx.trans_le (Nat.mul_le_mul_right _ this)

theorem lim_cases (M : Machine ι) (i : ι) : ∃ k ≤ 3, M.lim i = k * bpl := by
  obtain ⟨k, hk, limit⟩ := limit_cases (M.ptab i).format (M.limits (M.kind i))
  refine ⟨k, ?_, limit⟩
  rwa [M.format i, Fmt.max_eq] at hk

theorem three_levels (M : Machine ι) (i : ι) : 3 ≤ (M.ptab i).format.lev := by
  rw [M.format i]
  rcases (M.arch.fmt (M.kind i)).four_or_npt with four | ⟨xnx, e⟩
  · omega
  · rw [e]
    exact le_refl 3

/-- The formats of the spaces that `user_access` opens. -/
theorem open_stable (M : Machine ι) {i : ι} (kind : M.kind i ≠ .gst) :
    (M.ptab i).format.lev = 3 ∨ (M.ptab i).format.StableOr := by
  rw [M.format i]
  cases M.arch with
  | x86 mbec =>
      cases h : M.kind i with
      | hst => exact Or.inr hptX86_stableOr
      | gst => exact absurd h kind
      | dma => exact Or.inr dpt_stableOr
  | arm xnx => exact Or.inl rfl

/-- Opening or closing a range of a space. -/
theorem Sound.opens (sound : M.Sound s) {i : ι} {addr size : Nat} (a : Bool) (ca : Cacheability)
    (sh : Shareability) (kind : M.kind i ≠ .gst) (alignedB : 2 ^ pageBits ∣ addr)
    (alignedS : 2 ^ pageBits ∣ size) (fits : addr + size ≤ M.arch.num (M.kind i) * 2 ^ pageBits)
    (part : size < M.arch.num (M.kind i) * 2 ^ pageBits) :
    (M.ptab i).Opens a addr size s ((M.ptab i).userAccess (M.lim i) a ca sh addr size s) := by
  obtain ⟨k, hk, lim⟩ := M.lim_cases i
  have width : M.arch.num (M.kind i) * 2 ^ pageBits ≤ 2 ^ ((M.ptab i).format.lev * bpl + pageBits) := by
    rw [Nat.pow_add, M.format i]
    exact Nat.mul_le_mul_right _ (Delegation.num_le M.arch (M.kind i)).1
  have opened := Pagetable.userAccess_opens (M.lawful i) (M.three_levels i) (M.open_stable kind) hk a ca
    sh addr size s alignedB alignedS (fits.trans width) (part.trans_le width)
    (sound.wf i) (sound.exact_ i)
  rwa [← lim] at opened

/-- What every operation keeps. -/
structure Kept (M : Machine ι) (w : World) : Prop where
  sound : M.Sound w.state
  isolated : M.Isolated w

/-- Opening a range. -/
theorem kept_userAccess {w : World} (kept : M.Kept w) {i : ι} {addr size : Nat} (a : Bool)
    (ca : Cacheability) (sh : Shareability) (kind : M.kind i ≠ .gst) (alignedB : 2 ^ pageBits ∣ addr)
    (alignedS : 2 ^ pageBits ∣ size) (fits : addr + size ≤ M.arch.num (M.kind i) * 2 ^ pageBits)
    (part : size < M.arch.num (M.kind i) * 2 ^ pageBits) :
    M.Kept { state := (M.ptab i).userAccess (M.lim i) a ca sh addr size w.state
             opened := if a then (addr, size) :: w.opened else w.opened } ∧
      (M.Rooted w.state →
        M.Rooted ((M.ptab i).userAccess (M.lim i) a ca sh addr size w.state)) := by
  have opens := kept.sound.opens a ca sh kind alignedB alignedS fits part
  obtain ⟨sound, others⟩ := kept.sound.step i opens.frames opens.wf opens.exact_
  have more : ∀ q, Opened w.opened q →
      Opened (if a then (addr, size) :: w.opened else w.opened) q := by
    rintro q ⟨r, member, low, high⟩
    refine ⟨r, ?_, low, high⟩
    cases a with
    | true => exact List.mem_cons_of_mem _ member
    | false => exact member
  refine ⟨⟨sound, fun j x q pm ca' sh' hx mapped user image => ?_⟩, fun rooted j host x => ?_⟩
  · by_cases same : j = i
    · subst same
      have inside := M.num_inside j hx
      rcases opens.identity x inside with before | hole | ⟨rfl, d, itself⟩
      · exact more q (kept.isolated j x q pm ca' sh' hx (before ▸ mapped) user image)
      · exact absurd (hole.symm.trans mapped) (by simp)
      · -- mapped one to one: an address of the range, or one that was mapped so before
        obtain ⟨rfl, -⟩ : x = q ∧ _ := by simpa using itself.symm.trans mapped
        by_cases here : addr ≤ x.toNat ∧ x.toNat < addr + size
        · exact ⟨(addr, size), List.mem_cons_self, here⟩
        · exact more x (kept.isolated j x x pm ca' sh' hx
            ((opens.outside x inside here).symm.trans mapped) user image)
    · refine more q (kept.isolated j x q pm ca' sh' hx ?_ user image)
      rw [← mapped, Pagetable.translation, Pagetable.translation, others j same x]
  · by_cases same : j = i
    · subst same
      exact opens.level x (rooted j host x)
    · rw [others j same x]
      exact rooted j host x

/-- An update of one space. -/
theorem Sound.update (sound : M.Sound s) {i : ι} {v p : Word} {ord : Nat} {pm : Permissions}
    {ca : Cacheability} {sh : Shareability} (request : (M.ptab i).Request v p ord)
    (handles : (M.ptab i).format.Handles (M.lim i) ord) {res : Status}
    (run : (M.ptab i).update (M.lim i) v p ord pm ca sh s = (res, s')) :
    M.Sound s' ∧ (M.Rooted s → M.Rooted s') ∧
      ∀ j, j ≠ i → ∀ x, (M.ptab j).find s' x = (M.ptab j).find s x := by
  obtain ⟨-, wf, exact_, frames, -⟩ := Pagetable.update_spec (M.lawful i) (sound.wf i)
    (sound.exact_ i) request handles run
  have level := Pagetable.update_level (M.lawful i) (sound.wf i) pm ca sh handles.2.le fun j hj =>
    (Pagetable.rounds_good (M.lawful i) request handles hj _ _ _).1
  rw [run] at level
  obtain ⟨sound', others⟩ := sound.step i frames wf exact_
  refine ⟨sound', fun rooted j host x => ?_, others⟩
  by_cases same : j = i
  · subst same
    exact lt_of_le_of_lt (level x) (max_lt (rooted j host x) handles.2)
  · rw [others j same x]
    exact rooted j host x

/-- Mapping a kernel object. -/
theorem kept_mapKernel {w : World} (kept : M.Kept w) (rooted : M.Rooted w.state) {i : ι} {v p : Word}
    {pm : Permissions} {ca : Cacheability} {sh : Shareability} (host : M.kind i = .hst)
    (request : (M.ptab i).Request v p 0) :
    M.Kept { w with
      state := ((M.ptab i).update (M.lim i) v p 0 { pm with k := true } ca sh w.state).2 } ∧
      M.Rooted ((M.ptab i).update (M.lim i) v p 0 { pm with k := true } ca sh w.state).2 := by
  have handles : (M.ptab i).format.Handles (M.lim i) 0 :=
    ⟨Or.inl (Nat.zero_le _), by rw [Nat.zero_min]; exact (M.lawful i).lev_pos⟩
  generalize run : (M.ptab i).update (M.lim i) v p 0 { pm with k := true } ca sh w.state = out
  obtain ⟨res, s'⟩ := out
  obtain ⟨-, -, -, -, effect⟩ := Pagetable.update_spec (M.lawful i) (kept.sound.wf i)
    (kept.sound.exact_ i) request handles run
  obtain ⟨sound, rooted', others⟩ := kept.sound.update request handles run
  refine ⟨⟨sound, fun j x q pm' ca' sh' hx mapped user image => ?_⟩, rooted' rooted⟩
  by_cases same : j = i
  · subst same
    have inside := M.num_inside j hx
    have old : (M.ptab j).translation s' x = (M.ptab j).translation w.state x := by
      obtain ⟨outside, covered⟩ := effect x inside
      by_cases here : InRange v 0 x
      · rcases (covered here).2 with old | new
        · exact old
        · -- what was written carries the mark
          have written := new.symm.trans mapped
          rw [Pagetable.target] at written
          split at written
          · cases written
          · rename_i ne
            obtain ⟨-, encoded⟩ := Prod.mk.inj (Option.some.inj written)
            rw [M.format j, host] at ne encoded
            have mark := encoded_kernel M.arch (show { pm with k := true }.k = true from rfl) ne
            rw [encoded, user] at mark
            cases mark
      · exact (outside here).1
    exact kept.isolated j x q pm' ca' sh' hx (old ▸ mapped) user image
  · refine kept.isolated j x q pm' ca' sh' hx ?_ user image
    rw [← mapped, Pagetable.translation, Pagetable.translation, others j same x]

/-- The attributes of a mapping can be encoded again. -/
theorem stable_of_translation {T : Pagetable} (exact_ : T.Exact s) {y q : Word} {pm : Permissions}
    {ca : Cacheability} {sh : Shareability} (mapped : T.translation s y = some (q, pm, ca, sh)) :
    T.format.Stable pm ca sh := by
  unfold Pagetable.translation at mapped
  cases found : T.find s y with
  | mk l leaf =>
      rw [found] at mapped
      cases leaf with
      | none => cases mapped
      | some e =>
          have stable := Tree.find_allLeaves _ _ _ exact_ found
          simp only [Format.translate, Format.decode, Option.some.injEq, Prod.mk.injEq] at mapped
          obtain ⟨-, rfl, rfl, rfl⟩ := mapped
          exact stable

/-- What a copied mapping owes to its source. -/
theorem copy_mapped {X : Delegation} (A : Arch) (kind : MemKind)
    (formatS : X.source.format = (A.fmt .hst).format) (formatD : X.dest.format = (A.fmt kind).format)
    (exact_ : X.source.Exact s) {ca : Cacheability} {sh : Shareability} {y q : Word}
    {d : Permissions × Cacheability × Shareability}
    (copied : X.copy ca sh (X.source.translation s y) = some (q, d)) :
    ∃ pm ca' sh', X.source.translation s y = some (q, pm, ca', sh') ∧ pm.k = false ∧ d.1.Le pm := by
  cases source : X.source.translation s y with
  | none =>
      rw [source] at copied
      cases copied
  | some t =>
      obtain ⟨q', pm, ca', sh'⟩ := t
      have stable := stable_of_translation exact_ source
      rw [formatS] at stable
      rw [source, Delegation.copy] at copied
      generalize (if X.nova then ca else ca') = c at copied
      generalize (if X.nova then sh else sh') = r at copied
      split at copied
      · cases copied
      · rename_i ne
        obtain ⟨rfl, rfl⟩ := Prod.mk.inj (Option.some.inj copied)
        refine ⟨pm, ca', sh', rfl, ?_, ?_⟩
        · cases kernel : pm.k with
          | false => rfl
          | true =>
              rw [Permissions.granted_kernel kernel, formatD] at ne
              exact absurd ((A.fmt kind).lawful.attr_none _ _ _) ne
        · rw [formatD] at ne ⊢
          exact encoded_le A kind stable (pm.granted_le X.pmm) ne

/-- A delegation whose ranges fit into the spaces. -/
structure Delegated [DecidableEq ι] (M : Machine ι) (src dst : ι) (ssb dsb ord : Nat)
    (pmm : Permissions) (ca : Cacheability) (sh : Shareability)
    (junk : Nat → Cacheability × Shareability) (w : World) (s' : State) : Prop where
  source : ssb + 2 ^ ord ≤ M.arch.num .hst
  dest : dsb + 2 ^ ord ≤ M.arch.num (M.kind dst)
  result : ∃ res calls, (M.delegation src dst ord pmm junk).LoopResult ssb dsb ssb dsb ca sh w.state res
    s' calls
  after : M.run (.delegate src dst ssb dsb ord pmm ca sh junk) w = { w with state := s'.freeWait }
  sound : M.Sound s'
  rooted : M.Rooted s'
  others : ∀ j, j ≠ dst → ∀ x, (M.ptab j).find s' x = (M.ptab j).find w.state x

/-- A delegation fails at once or runs its loop. -/
theorem Sound.delegate [DecidableEq ι] {w : World} (sound : M.Sound w.state) (rooted : M.Rooted w.state)
    {src dst : ι} {ssb dsb ord : Nat} (pmm : Permissions) (ca : Cacheability) (sh : Shareability)
    (junk : Nat → Cacheability × Shareability) (host : M.kind src = .hst) (aligned : 2 ^ ord ∣ ssb)
    (aligned' : 2 ^ ord ∣ dsb) :
    M.run (.delegate src dst ssb dsb ord pmm ca sh junk) w = w ∨
      ∃ s', M.Delegated src dst ssb dsb ord pmm ca sh junk w s' := by
  by_cases bad : ssb + 2 ^ (M.delegation src dst ord pmm junk).ord > M.arch.num .hst ∨
      dsb + 2 ^ (M.delegation src dst ord pmm junk).ord > M.arch.num (M.kind dst)
  · left
    rw [run, Delegation.delegate, if_pos bad]
  · right
    obtain ⟨hs, hd⟩ := not_or.mp bad
    have formatS : (M.delegation src dst ord pmm junk).source.format = (M.arch.fmt .hst).format := by
      rw [← host]
      exact M.format src
    have setting : (M.delegation src dst ord pmm junk).Setting ssb dsb :=
      Delegation.setting_of_fits M.arch (M.kind dst) formatS (M.format dst) (M.limits (M.kind dst)) rfl
        aligned aligned' (Nat.not_lt.mp hs) (Nat.not_lt.mp hd)
    have legal : (M.delegation src dst ord pmm junk).Legal w.state := by
      refine ⟨sound.wf src, sound.wf dst, sound.exact_ src, sound.exact_ dst, ?_, rooted src host⟩
      by_cases same : src = dst
      · exact Or.inl (congrArg M.ptab same)
      · exact Or.inr (sound.apart dst src (Ne.symm same))
    have result := Delegation.delegate_result setting ca sh legal
    generalize h : (M.delegation src dst ord pmm junk).loop
      (ssb + 2 ^ (M.delegation src dst ord pmm junk).ord) ssb dsb ca sh w.state = out at result
    obtain ⟨res, s1, calls⟩ := out
    obtain ⟨sound', others⟩ := sound.step dst result.frames result.legal.wf' result.legal.exact'
    refine ⟨s1, Nat.not_lt.mp hs, Nat.not_lt.mp hd, ⟨res, calls, result⟩, ?_, sound',
      fun j host' x => ?_, others⟩
    · rw [run, Delegation.delegate, if_neg bad, h]
    · by_cases same : j = dst
      · subst same
        exact result.rooted x (rooted j host' x)
      · rw [others j same x]
        exact rooted j host' x

/-- A delegation. -/
theorem kept_delegate [DecidableEq ι] {w : World} (kept : M.Kept w) (rooted : M.Rooted w.state)
    {src dst : ι} {ssb dsb ord : Nat} (pmm : Permissions) (ca : Cacheability) (sh : Shareability)
    (junk : Nat → Cacheability × Shareability) (host : M.kind src = .hst) (aligned : 2 ^ ord ∣ ssb)
    (aligned' : 2 ^ ord ∣ dsb) :
    M.Kept (M.run (.delegate src dst ssb dsb ord pmm ca sh junk) w) ∧
      M.Rooted (M.run (.delegate src dst ssb dsb ord pmm ca sh junk) w).state ∧
      M.NoAmplification w (.delegate src dst ssb dsb ord pmm ca sh junk) := by
  rcases kept.sound.delegate rooted pmm ca sh junk host aligned aligned' with same | ⟨s1, delegated⟩
  · refine ⟨by rw [same]; exact kept, by rw [same]; exact rooted, fun x _ => Or.inl ?_⟩
    rw [same]
  · obtain ⟨hs, hd, ⟨res, calls, result⟩, after, sound, rooted', others⟩ := delegated
    have formatS : (M.delegation src dst ord pmm junk).source.format = (M.arch.fmt .hst).format := by
      rw [← host]
      exact M.format src
    have smallS := (Delegation.num_le M.arch .hst).2
    have smallD := (Delegation.num_le M.arch (M.kind dst)).2
    have pos := Nat.two_pow_pos ord
    have base := toNat_pageAddr (n := dsb) (by omega)
    have range : ∀ x, InRange (pageAddr dsb) ord x ↔ dsb * 2 ^ pageBits ≤ x.toNat ∧
        x.toNat < (dsb + 2 ^ ord) * 2 ^ pageBits := by
      intro x
      rw [InRange, base, Nat.add_mul, ← Nat.pow_add]
    -- where a mapping of the destination comes from
    have cases_ : ∀ x, InRange (pageAddr dsb) ord x →
        (M.ptab dst).translation s1 x = (M.ptab dst).translation w.state x ∨
          (M.ptab dst).translation s1 x = none ∨
          ∃ q d pm ca' sh', (M.ptab dst).translation s1 x = some (q, d) ∧
            (M.ptab src).translation w.state (Delegation.sourceOf ssb dsb x) = some (q, pm, ca', sh') ∧
            pm.k = false ∧ d.1.Le pm := by
      intro x inRange
      obtain ⟨low, high⟩ := (range x).mp inRange
      rcases (result.inside x (Delegation.sourceOf ssb dsb x) low high
        (Delegation.toNat_sourceOf (by omega) (by omega) inRange)).2 with old | new
      · exact Or.inl old
      · right
        cases mapped : (M.ptab dst).translation s1 x with
        | none => exact Or.inl rfl
        | some t =>
            obtain ⟨q, d⟩ := t
            obtain ⟨pm, ca', sh', source, user, le⟩ := copy_mapped M.arch (M.kind dst) formatS
              (M.format dst) (kept.sound.exact_ src) (new.symm.trans mapped)
            exact Or.inr ⟨q, d, pm, ca', sh', rfl, source, user, le⟩
    rw [after]
    refine ⟨⟨sound.freeWait, fun j x q pm ca' sh' hx mapped user image => ?_⟩, rooted', ?_⟩
    · by_cases same : j = dst
      · subst same
        by_cases here : InRange (pageAddr dsb) ord x
        · rcases cases_ x here with old | hole | ⟨q', d, pm', ca0, sh0, new, source, user', le⟩
          · exact kept.isolated j x q pm ca' sh' hx (old ▸ mapped) user image
          · exact absurd (hole.symm.trans mapped) (by simp)
          · obtain ⟨rfl, -⟩ := Prod.mk.inj (Option.some.inj (new.symm.trans mapped))
            refine kept.isolated src (Delegation.sourceOf ssb dsb x) q' pm' ca0 sh0 ?_ source user' image
            have same : (Delegation.sourceOf ssb dsb x).toNat + dsb * 2 ^ pageBits =
                x.toNat + ssb * 2 ^ pageBits := Delegation.toNat_sourceOf (by omega) (by omega) here
            have high := ((range x).mp here).2
            have room : (ssb + 2 ^ ord) * 2 ^ pageBits ≤ M.arch.num .hst * 2 ^ pageBits :=
              Nat.mul_le_mul_right _ hs
            rw [host]
            rw [Nat.add_mul] at high room
            omega
        · have outside := result.outside x (M.num_inside j hx) fun h => here ((range x).mpr h)
          exact kept.isolated j x q pm ca' sh' hx (outside.1 ▸ mapped) user image
      · refine kept.isolated j x q pm ca' sh' hx ?_ user image
        rw [← mapped]
        show (M.ptab j).translation w.state x = (M.ptab j).translation s1 x
        rw [Pagetable.translation, Pagetable.translation, others j same x]
    · intro x inRange
      rw [after]
      exact cases_ x inRange

/-! ## Whole runs -/

/-- The boot page table of `Space_hst::nova` lets no user mapping lead into the kernel
image. -/
def BootClean (M : Machine ι) (boot : State) : Prop :=
  ∀ x q pm ca sh, x.toNat < M.arch.num .hst * 2 ^ pageBits →
    (M.ptab M.nova).translation boot x = some (q, pm, ca, sh) → pm.k = false → ¬ M.Image q

/-- The arguments of the two calls of `user_access` in the constructor. -/
theorem start_ranges (M : Machine ι) : M.kind M.nova ≠ .gst ∧
    2 ^ pageBits ∣ M.arch.num .hst * 2 ^ pageBits - M.hpae ∧
    0 + M.hpas ≤ M.arch.num (M.kind M.nova) * 2 ^ pageBits ∧
    M.hpas < M.arch.num (M.kind M.nova) * 2 ^ pageBits ∧
    M.hpae + (M.arch.num .hst * 2 ^ pageBits - M.hpae) ≤ M.arch.num (M.kind M.nova) * 2 ^ pageBits ∧
    M.arch.num .hst * 2 ^ pageBits - M.hpae < M.arch.num (M.kind M.nova) * 2 ^ pageBits := by
  have image := M.image
  have fits := M.image_fits
  rw [M.host]
  exact ⟨by decide, Nat.dvd_sub (Nat.dvd_mul_left _ _) M.image_aligned.2, by omega, by omega, by omega,
    by omega⟩

/-- The constructor of `Space_hst::nova`. -/
theorem kept_start [DecidableEq ι] {boot : State} (sound : M.Sound boot)
    (empty : ∀ i, i ≠ M.nova → ∀ x, (M.ptab i).translation boot x = none)
    (clean : M.BootClean boot) :
    M.Kept (M.start boot) ∧ (M.Rooted boot → M.Rooted (M.start boot).state) := by
  obtain ⟨host, alignedU, fitsL, partL, fitsU, partU⟩ := M.start_ranges
  obtain ⟨alignedS, alignedE⟩ := M.image_aligned
  have first : M.Kept { state := boot, opened := [] } := by
    refine ⟨sound, fun i x q pm ca sh hx mapped user inImage => ?_⟩
    by_cases same : i = M.nova
    · subst same
      rw [M.host] at hx
      exact absurd inImage (clean x q pm ca sh hx mapped user)
    · rw [empty i same x] at mapped
      cases mapped
  obtain ⟨below, rooted⟩ := kept_userAccess first true M.deviceCa 0#2 host (Nat.dvd_zero _) alignedS fitsL partL
  obtain ⟨kept, rooted'⟩ := kept_userAccess below true M.deviceCa 0#2 host alignedE alignedU fitsU partU
  exact ⟨kept, fun root => rooted' (rooted root)⟩

/-- The constructor leaves the mappings of the kernel image as they are. -/
theorem start_image [DecidableEq ι] {boot : State} (sound : M.Sound boot) {x : Word} (image : M.Image x) :
    (M.ptab M.nova).translation (M.start boot).state x = (M.ptab M.nova).translation boot x := by
  obtain ⟨host, alignedU, fitsL, partL, fitsU, partU⟩ := M.start_ranges
  obtain ⟨alignedS, alignedE⟩ := M.image_aligned
  obtain ⟨low, high⟩ := image
  have fits := M.image_fits
  have inside : (M.ptab M.nova).Inside x := M.num_inside M.nova (by rw [M.host]; omega)
  have below := sound.opens true M.deviceCa 0#2 host (Nat.dvd_zero _) alignedS fitsL partL
  have above := (sound.step M.nova below.frames below.wf below.exact_).1.opens true M.deviceCa 0#2 host
    alignedE alignedU fitsU partU
  exact (above.outside x inside fun h => by omega).trans (below.outside x inside fun h => by omega)

/-- **Every operation** keeps the spaces isolated and adds no permission. -/
theorem kept_run [DecidableEq ι] {w : World} {op : MemOp ι} (kept : M.Kept w)
    (rooted : M.Rooted w.state) (admissible : M.Admissible op) :
    (M.Kept (M.run op w) ∧ M.Rooted (M.run op w).state) ∧ M.NoAmplification w op := by
  cases op with
  | userAccess i addr size a ca sh =>
      obtain ⟨kind, alignedB, alignedS, fits, part⟩ := admissible
      obtain ⟨kept', rooted'⟩ := kept_userAccess kept a ca sh kind alignedB alignedS fits part
      exact ⟨⟨kept', rooted' rooted⟩, trivial⟩
  | mapKernel i v p pm ca sh =>
      obtain ⟨host, request⟩ := admissible
      exact ⟨kept_mapKernel kept rooted host request, trivial⟩
  | delegate src dst ssb dsb ord pmm ca sh junk =>
      obtain ⟨host, aligned, aligned'⟩ := admissible
      obtain ⟨kept', rooted', bounded⟩ := kept_delegate kept rooted pmm ca sh junk host aligned aligned'
      exact ⟨⟨kept', rooted'⟩, bounded⟩
  | others supply race =>
      exact ⟨⟨⟨kept.sound.others supply race, kept.isolated⟩, rooted⟩, trivial⟩

/-- **Kernel memory stays isolated** in every run that starts from a clean boot page
table, and no delegation of the run adds a permission. -/
theorem isolated_of_boot [DecidableEq ι] (M : Machine ι) (boot : State) (sound : M.Sound boot)
    (empty : ∀ i, i ≠ M.nova → ∀ x, (M.ptab i).translation boot x = none) (clean : M.BootClean boot)
    (rooted : M.Rooted (M.start boot).state) (ops : List (MemOp ι))
    (admissible : ∀ op ∈ ops, M.Admissible op) :
    M.Isolated (M.start boot) ∧
      Along M.run (fun w op => M.Isolated (M.run op w) ∧ M.NoAmplification w op) (M.start boot) ops := by
  have kept := (kept_start sound empty clean).1
  refine ⟨kept.isolated, ?_⟩
  refine Along.transfer (I := fun w => M.Kept w ∧ M.Rooted w.state) (G := fun _ op => M.Admissible op)
    (fun w op inv good => ?_) ops _ ⟨kept, rooted⟩ (Along.of_forall admissible)
  obtain ⟨next, bounded⟩ := kept_run inv.1 inv.2 good
  exact ⟨next, next.1.isolated, bounded⟩

/-! ## The boot page table of x86

`start.S` maps the 2MB page of the load address one to one, in tables of its own:
here with the permissions `pm` in the leaf. -/

/-- An image of 2MB, loaded at 2MB. -/
def bootMachine : Machine Unit where
  arch := .x86 false
  kind _ := .hst
  ptab _ := bareTable hptX86
  limits _ := []
  nova := ()
  hpas := 0x200000
  hpae := 0x400000
  format _ := rfl
  host := rfl
  image := by decide
  image_fits := by decide
  image_aligned := by decide

def loadSection (pm : Permissions) : State :=
  ((bareTable hptX86).update 27 0x200000#64 0x200000#64 9 pm 0#3 0#2
    (Pagetable.seedState [0x2000#64, 0x3000#64, 0x4000#64])).2

theorem loadSection_sound (pm : Permissions) : bootMachine.Sound (loadSection pm) ∧
    ∀ x, (bareTable hptX86).Inside x →
      (¬ InRange 0x200000#64 9 x → (bareTable hptX86).translation (loadSection pm) x = none) ∧
      (InRange 0x200000#64 9 x → (bareTable hptX86).translation (loadSection pm) x = none ∨
        (bareTable hptX86).translation (loadSection pm) x =
          (bareTable hptX86).target 0x200000#64 0x200000#64 pm 0#3 0#2 x) := by
  have bare := Pagetable.seed_wf hptX86_lawful [0x2000#64, 0x3000#64, 0x4000#64]
  have exact_ : (bareTable hptX86).Exact
      (Pagetable.seedState [0x2000#64, 0x3000#64, 0x4000#64]) := (bare_wf hptX86_lawful).2
  have none : ∀ x, (bareTable hptX86).translation
      (Pagetable.seedState [0x2000#64, 0x3000#64, 0x4000#64]) x = none := by
    intro x
    have hole : (bareTable hptX86).tree (Pagetable.seedState [0x2000#64, 0x3000#64, 0x4000#64]) = .hole :=
      bare_tree hptX86
    rw [Pagetable.translation, Pagetable.find, hole]
    rfl
  have request : (bareTable hptX86).Request 0x200000#64 0x200000#64 9 :=
    ⟨by decide, by decide, by decide, by decide⟩
  have run : (bareTable hptX86).update 27 0x200000#64 0x200000#64 9 pm 0#3 0#2
      (Pagetable.seedState [0x2000#64, 0x3000#64, 0x4000#64]) = (_, loadSection pm) := rfl
  obtain ⟨-, wf, exact', frames, effect⟩ := Pagetable.update_spec (T := bareTable hptX86) hptX86_lawful
    bare exact_ request (by decide) run
  have parted := frames.parted bare (Pagetable.seed_books hptX86 _).1
  refine ⟨⟨fun _ => wf, fun _ => exact', fun i j ne => absurd rfl ne, fun _ => parted⟩,
    fun x inside => ⟨fun out => ?_, fun within => ?_⟩⟩
  · exact ((effect x inside).1 out).1.trans (none x)
  · exact ((effect x inside).2 within).2.imp_left fun same => same.trans (none x)

/-- A page of `Space_hst::nova` is delegated to itself. -/
def selfDelegation : MemOp Unit := .delegate () () 0x300 0x301 0 { r := true } 0#3 0#2 fun _ => (0#3, 0#2)

/-- With `K` in the leaf the boot page table is clean. -/
theorem isolated_of_boot_kernel_page :
    bootMachine.Isolated (bootMachine.start (loadSection { r := true, w := true, k := true })) ∧
      Along bootMachine.run
        (fun w op => bootMachine.Isolated (bootMachine.run op w) ∧ bootMachine.NoAmplification w op)
        (bootMachine.start (loadSection { r := true, w := true, k := true })) [selfDelegation] := by
  obtain ⟨sound, effect⟩ := loadSection_sound { r := true, w := true, k := true }
  have empty : ∀ i, i ≠ bootMachine.nova → ∀ x,
      (bootMachine.ptab i).translation (loadSection { r := true, w := true, k := true }) x = none :=
    fun _ ne => absurd rfl ne
  have clean : bootMachine.BootClean (loadSection { r := true, w := true, k := true }) := by
    intro x q pm ca sh hx mapped user
    have inside := bootMachine.num_inside () hx
    by_cases within : InRange 0x200000#64 9 x
    · rcases (effect x inside).2 within with hole | written
      · exact absurd (hole.symm.trans mapped) (by simp)
      · obtain ⟨-, attrs⟩ := Prod.mk.inj (Option.some.inj (written.symm.trans mapped))
        obtain ⟨rfl, -⟩ := Prod.mk.inj attrs
        cases user
    · exact absurd (((effect x inside).1 within).symm.trans mapped) (by simp)
  have rooted : bootMachine.Rooted (loadSection { r := true, w := true, k := true }) := fun _ _ =>
    Delegation.level_of_root hptX86_lawful.lev_pos (T := bareTable hptX86) ⟨0x2000#64, rfl⟩
  refine isolated_of_boot bootMachine _ sound empty clean ((kept_start sound empty clean).2 rooted) _
    fun op member => ?_
  rw [List.mem_singleton.mp member]
  exact ⟨rfl, Nat.one_dvd _, Nat.one_dvd _⟩

/-- **The boot page table of `start.S` is not clean**: its leaf has no `K`, and the
constructor of `Space_hst::nova` leaves it in place. -/
theorem boot_not_isolated : ¬ bootMachine.Isolated
    (bootMachine.start (loadSection { r := true, w := true, xu := true, xs := true })) := by
  intro isolated
  obtain ⟨sound, -⟩ := loadSection_sound { r := true, w := true, xu := true, xs := true }
  have image : bootMachine.Image 0x200000#64 := by
    unfold Image
    decide
  have mapped : (bareTable hptX86).translation
      (loadSection { r := true, w := true, xu := true, xs := true }) 0x200000#64 =
      some (0x200000#64, { r := true, w := true, xu := true, xs := true }, 0#3, 0#2) := by
    rfl
  obtain ⟨range, member, low, high⟩ := isolated () 0x200000#64 0x200000#64 _ _ _ (by decide)
    ((start_image sound image).trans mapped) rfl image
  rcases List.mem_cons.mp member with rfl | member
  · exact absurd low (by decide)
  · rcases List.mem_cons.mp member with rfl | member
    · exact absurd high (by decide)
    · exact absurd member List.not_mem_nil

end Machine

end Nova.Kernel
