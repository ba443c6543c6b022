/-
# Nova.Kernel.RootImage — the host space of the root protection domain

`Ec::create_root` reads the ELF image at the physical address `ra` and delegates the
pages of its segments from `Space_hst::nova` to the host space of the root PD; then it
maps the hypervisor information page.  It looks at the type, the sizes and the page
offset of a segment, and at nothing else: not at the answer of `delegate`, and not at
whether segments overlap or where they come from.

* `root_origins`: for every image, however the loop ends and whichever delegations fail,
  a mapping of the root space was there before, is the information page, or is what
  `Space_hst::nova` maps without `K` at the physical page that a segment names, with no
  permission that `Space_hst::nova` does not give, and neither written nor executed
  unless the segment is; and the kernel image stays isolated if it was;
* `root_image`: if no operation failed, then the root space is exactly the image, the
  last segment deciding where several overlap, and `root_s` and `root_e` enclose every
  segment.

Layers and what they leave are `Nova.Theory.Overlay`; a delegation is a layer by
`delegate_result`, the piecewise delegation of a segment by `segment_range`.
-/
import Nova.Theory.Overlay
import Nova.Kernel.AcpiTables
import Nova.Kernel.Isolation
import Nova.Kernel.Ranges

namespace Nova.Kernel.RootImage

open Nova.Theory.Words
open Nova.Theory.Radix
open Nova.Theory.Runs
open Nova.Theory.Overlay
open Nova.Kernel.AcpiTables
open Nova.Kernel.Ranges

set_option autoImplicit false

/-! ## The image -/

/-- `Eh`, as far as `create_root` reads it -/
structure Eh where
  magic : BitVec 32
  class_ : BitVec 8
  data : BitVec 8
  version : BitVec 8
  type : BitVec 16
  machine : BitVec 16
  entry : Word
  phOffset : Word
  phCount : BitVec 16

def readEh (m : Memory) (a : Nat) : Eh where
  magic := u32 m a
  class_ := u8 m (a + 4)
  data := u8 m (a + 5)
  version := u8 m (a + 6)
  type := u16 m (a + 16)
  machine := u16 m (a + 18)
  entry := u64 m (a + 24)
  phOffset := u64 m (a + 32)
  phCount := u16 m (a + 56)

def readPh (m : Memory) (a : Nat) : Ph where
  type := u32 m a
  flags := u32 m (a + 4)
  fOffs := u64 m (a + 8)
  vAddr := u64 m (a + 16)
  fSize := u64 m (a + 32)
  mSize := u64 m (a + 40)

/-- `Eh::ELF_MACHINE` -/
def elfMachine : Arch → BitVec 16
  | .x86 _ => 0x3e
  | .arm _ => 0xb7

def Eh.valid (A : Arch) (e : Eh) : Bool :=
  e.magic = 0x464c457f ∧ e.class_ = 2 ∧ e.data = 1 ∧ e.version = 1 ∧ e.type = 2 ∧ e.machine = elfMachine A

/-- The entries that the loop visits -/
def table (m : Memory) (ra : Word) : List Ph :=
  let e := readEh m ra.toNat
  (List.range e.phCount.toNat).map fun i => readPh m ((ra + e.phOffset).toNat + 56 * i)

/-- `virt` of a segment -/
def virt (p : Ph) : Word := alignDn p.vAddr 4096#64

/-- `phys` of a segment -/
def phys (ra : Word) (p : Ph) : Word := alignDn (p.fOffs + ra) 4096#64

/-- `size` of a segment -/
def size (p : Ph) : Word := alignUp (p.vAddr + p.fSize) 4096#64 - virt p

/-- What the loop leaves behind -/
structure Load where
  /-- no segment was refused -/
  done : Bool
  calls : List Delegate
  rootS : Word
  rootE : Word

/-- The loop over the program header table -/
def load (ra : Word) : List Ph → Word → Word → Load
  | [], rootS, rootE => { done := true, calls := [], rootS, rootE }
  | p :: rest, rootS, rootE =>
      match loadSegment ra p with
      | .skipped => load ra rest rootS rootE
      | .refused => { done := false, calls := [], rootS, rootE }
      | .mapped calls =>
          let l := load ra rest (if phys ra p < rootS then phys ra p else rootS)
            (if rootE < phys ra p + size p then phys ra p + size p else rootE)
          { l with calls := calls ++ l.calls }

/-! ## `create_root` -/

inductive Outcome where
  /-- `ROOT: No image` -/
  | noImage
  /-- `create_ec` or `create_sc` failed. -/
  | noObject
  /-- `ROOT: Wrong architecture` -/
  | wrongArch
  /-- The image has a segment that cannot be loaded. -/
  | refused
  /-- The SC of the root EC is ready, with these values of `ip` and `sp`. -/
  | started (ip sp : Word)
deriving DecidableEq

/-- `MEM_WB` -/
def memWb : Arch → Cacheability
  | .x86 _ => 0#3
  | .arm _ => 7#3

/-- `INNER` -/
def inner : Arch → Shareability
  | .x86 _ => 0#2
  | .arm _ => 3#2

section CreateRoot

variable {ι : Type} [DecidableEq ι] (M : Machine ι)

/-- `hst->delegate (&Space_hst::nova, …)` -/
def mapOp (hst : ι) (junk : Nat → Cacheability × Shareability) (c : Delegate) : MemOp ι :=
  .delegate M.nova hst c.ssb.toNat c.dsb.toNat c.ord.toNat c.pmm (memWb M.arch) (inner M.arch) junk

def infoAddr : Word := pageAddr (M.arch.num .hst - 1)

/-- `hst->update (info_addr, …)` for the information page at `hip` -/
def infoOp (hst : ι) (hip : Word) : MemOp ι :=
  .mapKernel hst (infoAddr M) hip { r := true, u := true } (memWb M.arch) (inner M.arch)

/-- What the operations of `create_root` answer; it looks at none of them. -/
def status : MemOp ι → World → Status
  | .delegate src dst ssb dsb ord pmm ca sh junk, w =>
      ((M.delegation src dst ord pmm junk).delegate M.arch (M.kind dst) ssb dsb ca sh w.state).1
  | .mapKernel i v p pm ca sh, w => ((M.ptab i).update (M.lim i) v p 0 { pm with k := true } ca sh w.state).1
  | .userAccess .., _ => .success
  | .others .., _ => .success

structure Root (ι : Type) where
  outcome : Outcome
  ops : List (MemOp ι)
  rootS : Word
  rootE : Word

/-- `create_root` gives up. -/
def Root.fails (outcome : Outcome) : Root ι := { outcome, ops := [], rootS := 0#64 - 1#64, rootE := 0#64 }

/-- The loop on the image at `ra` -/
def loaded (m : Memory) (ra : Word) : Load := load ra (table m ra) (0#64 - 1#64) 0#64

/-- The operations from the loop on -/
def loadOps (hip : Word) (hst : ι) (junk : Nat → Cacheability × Shareability) (l : Load) : List (MemOp ι) :=
  l.calls.map (mapOp M hst junk) ++ if l.done then [infoOp M hst hip] else []

/-- `Ec::create_root`: the operations on memory spaces; `objects` says whether the EC and the SC exist. -/
def createRoot (m : Memory) (ra hip : Word) (objects : Bool) (hst : ι) (junk : Nat → Cacheability × Shareability) : Root ι :=
  if ra = 0#64 then .fails .noImage
  else if ¬ objects then .fails .noObject
  else if ¬ (readEh m ra.toNat).valid M.arch then .fails .wrongArch
  else
    { outcome := if (loaded m ra).done then .started (readEh m ra.toNat).entry (infoAddr M) else .refused
      ops := loadOps M hip hst junk (loaded m ra)
      rootS := (loaded m ra).rootS
      rootE := (loaded m ra).rootE }

/-- Every operation succeeds. -/
def Succeeds : World → List (MemOp ι) → Prop := Along M.run fun w op => status M op w = .success

/-- The state after the operations -/
def after (w : World) (ops : List (MemOp ι)) : World := ops.foldl (fun w op => M.run op w) w

end CreateRoot

/-! ## Operations as layers -/

section Layers

variable {ι : Type} {M : Machine ι} {hst : ι} {w w' : World}

instance (v : Word) (ord : Nat) (x : Word) : Decidable (InRange v ord x) := inferInstanceAs (Decidable (_ ∧ _))

/-- What `delegate` makes of a translation of `Space_hst::nova` in a host space -/
def placed (M : Machine ι) (hst : ι) (pmm : Permissions) : Translation → Translation
  | none => none
  | some (q, pm, _, _) =>
      if (M.ptab hst).format.pageAttr 0 (pm.granted pmm) (memWb M.arch) (inner M.arch) = 0#64 then none
      else some (q, (M.ptab hst).format.encoded (pm.granted pmm) (memWb M.arch) (inner M.arch))

/-- What a delegation writes, given the translations of `Space_hst::nova` -/
def callLayer (M : Machine ι) (hst : ι) (source : Word → Translation) (c : Delegate) (x : Word) : Option Translation :=
  if InRange (pageAddr c.dsb.toNat) c.ord.toNat x then
    some (placed M hst c.pmm (source (Delegation.sourceOf c.ssb.toNat c.dsb.toNat x)))
  else none

/-- What mapping the information page writes -/
def infoLayer (M : Machine ι) (hst : ι) (hip x : Word) : Option Translation :=
  if InRange (infoAddr M) 0 x then
    some ((M.ptab hst).target (infoAddr M) hip { r := true, u := true, k := true } (memWb M.arch) (inner M.arch) x)
  else none

/-- From `w` to `w'` the layers were written into the space `hst`: if `done` all of them, else in parts. -/
structure Laid (M : Machine ι) (hst : ι) (w w' : World) (done : Prop) (layers : List (Word → Option Translation)) :
    Prop where
  sound : M.Sound w'.state
  rooted : M.Rooted w'.state
  others : ∀ j, j ≠ hst → ∀ x, (M.ptab j).translation w'.state x = (M.ptab j).translation w.state x
  laid : done → ∀ x, (M.ptab hst).Inside x →
    (M.ptab hst).translation w'.state x = overlay layers ((M.ptab hst).translation w.state) x
  origin : ∀ x, (M.ptab hst).Inside x → (M.ptab hst).translation w'.state x = (M.ptab hst).translation w.state x ∨
    ∃ layer ∈ layers, layer x = some ((M.ptab hst).translation w'.state x)

theorem laid_nil (sound : M.Sound w.state) (rooted : M.Rooted w.state) (done : Prop) : Laid M hst w w done [] :=
  ⟨sound, rooted, fun _ _ _ => rfl, fun _ _ _ => rfl, fun _ _ => .inl rfl⟩

theorem Laid.append {w'' : World} {done done' : Prop} {lower upper : List (Word → Option Translation)}
    (first : Laid M hst w w' done lower) (second : Laid M hst w' w'' done' upper) :
    Laid M hst w w'' (done ∧ done') (lower ++ upper) where
  sound := second.sound
  rooted := second.rooted
  others := fun j other x => (second.others j other x).trans (first.others j other x)
  laid := by
    rintro ⟨here, there⟩ x inside
    rw [second.laid there x inside, overlay_append]
    exact overlay_congr (first.laid here x inside)
  origin := by
    intro x inside
    rcases second.origin x inside with same | ⟨layer, member, is⟩
    · rw [same]
      exact (first.origin x inside).imp_right fun ⟨layer, member, is⟩ => ⟨layer, List.mem_append_left _ member, is⟩
    · exact .inr ⟨layer, List.mem_append_right _ member, is⟩

theorem Laid.weaken {done done' : Prop} {layers : List (Word → Option Translation)} (laid : Laid M hst w w' done layers)
    (imp : done' → done) : Laid M hst w w' done' layers :=
  { laid with laid := fun all => laid.laid (imp all) }

/-- A single layer -/
theorem laid_single {done : Prop} {layer : Word → Option Translation} (sound : M.Sound w'.state)
    (rooted : M.Rooted w'.state)
    (others : ∀ j, j ≠ hst → ∀ x, (M.ptab j).translation w'.state x = (M.ptab j).translation w.state x)
    (outside : ∀ x, (M.ptab hst).Inside x → layer x = none →
      (M.ptab hst).translation w'.state x = (M.ptab hst).translation w.state x)
    (inside : ∀ x t, (M.ptab hst).Inside x → layer x = some t → (done → (M.ptab hst).translation w'.state x = t) ∧
      ((M.ptab hst).translation w'.state x = (M.ptab hst).translation w.state x ∨
        (M.ptab hst).translation w'.state x = t)) : Laid M hst w w' done [layer] where
  sound := sound
  rooted := rooted
  others := others
  laid := by
    intro all x within
    rw [overlay_cons, overlay_nil]
    cases is : layer x with
    | none => exact outside x within is
    | some t => exact (inside x t within is).1 all
  origin := by
    intro x within
    cases is : layer x with
    | none => exact .inl (outside x within is)
    | some t => exact (inside x t within is).2.imp_right fun new => ⟨layer, List.mem_singleton_self _, by rw [is, new]⟩

variable [DecidableEq ι]

theorem copy_eq_placed (M : Machine ι) (hst : ι) (ord : Nat) (pmm : Permissions)
    (junk : Nat → Cacheability × Shareability) :
    (M.delegation M.nova hst ord pmm junk).copy (memWb M.arch) (inner M.arch) = placed M hst pmm := by
  funext t
  rcases t with _ | ⟨q, pm, ca, sh⟩
  · rfl
  · simp only [Delegation.copy, placed, Machine.delegation, decide_true, if_true]

/-- **A delegation** from `Space_hst::nova` is a layer. -/
theorem laid_mapOp (sound : M.Sound w.state) (rooted : M.Rooted w.state)
    (junk : Nat → Cacheability × Shareability) {c : Delegate} (aligned : 2 ^ c.ord.toNat ∣ c.ssb.toNat)
    (aligned' : 2 ^ c.ord.toNat ∣ c.dsb.toNat) {source : Word → Translation}
    (from_ : ∀ x, (M.ptab M.nova).translation w.state x = source x) :
    Laid M hst w (M.run (mapOp M hst junk c) w) (status M (mapOp M hst junk c) w = .success) [callLayer M hst source c] ∧
      (status M (mapOp M hst junk c) w = .success → c.ssb.toNat + 2 ^ c.ord.toNat ≤ M.arch.num .hst) := by
  have pos := Nat.two_pow_pos c.ord.toNat
  by_cases bad : c.ssb.toNat + 2 ^ c.ord.toNat > M.arch.num .hst ∨ c.dsb.toNat + 2 ^ c.ord.toNat > M.arch.num (M.kind hst)
  · have answer : (M.delegation M.nova hst c.ord.toNat c.pmm junk).delegate M.arch (M.kind hst) c.ssb.toNat c.dsb.toNat
        (memWb M.arch) (inner M.arch) w.state = (.badPar, w.state, []) := by
      unfold Delegation.delegate
      exact if_pos bad
    have fails : status M (mapOp M hst junk c) w ≠ .success := by
      simp only [status, mapOp, answer]
      decide
    have same : M.run (mapOp M hst junk c) w = w := by
      simp only [Machine.run, mapOp, answer]
    rw [same]
    refine ⟨⟨sound, rooted, fun _ _ _ => rfl, fun success => absurd success fails, fun _ _ => .inl rfl⟩,
      fun success => absurd success fails⟩
  · obtain ⟨hs, hd⟩ := not_or.mp bad
    have hs := Nat.not_lt.mp hs
    have hd := Nat.not_lt.mp hd
    have formatS : (M.ptab M.nova).format = (M.arch.fmt .hst).format := by
      rw [← M.host]
      exact M.format M.nova
    have setting : (M.delegation M.nova hst c.ord.toNat c.pmm junk).Setting c.ssb.toNat c.dsb.toNat :=
      Delegation.setting_of_fits M.arch (M.kind hst) formatS (M.format hst) (M.limits (M.kind hst)) rfl aligned aligned' hs hd
    have legal : (M.delegation M.nova hst c.ord.toNat c.pmm junk).Legal w.state := by
      refine ⟨sound.wf M.nova, sound.wf hst, sound.exact_ M.nova, sound.exact_ hst, ?_, rooted M.nova M.host⟩
      by_cases same : M.nova = hst
      · exact Or.inl (congrArg M.ptab same)
      · exact Or.inr (sound.apart hst M.nova (Ne.symm same))
    have result := Delegation.delegate_result setting (memWb M.arch) (inner M.arch) legal
    generalize h : (M.delegation M.nova hst c.ord.toNat c.pmm junk).loop
      (c.ssb.toNat + 2 ^ (M.delegation M.nova hst c.ord.toNat c.pmm junk).ord) c.ssb.toNat c.dsb.toNat (memWb M.arch)
      (inner M.arch) w.state = out at result
    obtain ⟨res, s₁, calls⟩ := out
    have answer : (M.delegation M.nova hst c.ord.toNat c.pmm junk).delegate M.arch (M.kind hst) c.ssb.toNat c.dsb.toNat
        (memWb M.arch) (inner M.arch) w.state = (res, s₁.freeWait, calls) := by
      unfold Delegation.delegate
      rw [h]
      exact if_neg bad
    have state : M.run (mapOp M hst junk c) w = { w with state := s₁.freeWait } := by
      simp only [Machine.run, mapOp, answer]
    have answers : status M (mapOp M hst junk c) w = res := by
      simp only [status, mapOp, answer]
    obtain ⟨sound', others⟩ := sound.step hst result.frames result.legal.wf' result.legal.exact'
    have smallS := (Delegation.num_le M.arch .hst).2
    have smallD := (Delegation.num_le M.arch (M.kind hst)).2
    have range : ∀ x, InRange (pageAddr c.dsb.toNat) c.ord.toNat x ↔ c.dsb.toNat * 2 ^ pageBits ≤ x.toNat ∧
        x.toNat < (c.dsb.toNat + 2 ^ c.ord.toNat) * 2 ^ pageBits := by
      intro x
      rw [InRange, toNat_pageAddr (by omega), Nat.add_mul, ← Nat.pow_add]
    rw [state, answers]
    refine ⟨laid_single sound'.freeWait (fun j host' x => ?_) (fun j other x => ?_) (fun x inside none => ?_)
      (fun x t inside some => ?_), fun _ => hs⟩
    · show ((M.ptab j).find s₁ x).1 < _
      by_cases same : j = hst
      · subst same
        exact result.rooted x (rooted j host' x)
      · rw [others j same x]
        exact rooted j host' x
    · show (M.ptab j).translation s₁ x = _
      rw [Pagetable.translation, Pagetable.translation, others j other x]
    · unfold callLayer at none
      split at none
      · cases none
      · rename_i out
        exact (result.outside x inside fun h => out ((range x).mpr h)).1
    · unfold callLayer at some
      split at some
      · rename_i within
        have at_ := result.inside x (Delegation.sourceOf c.ssb.toNat c.dsb.toNat x) ((range x).mp within).1
          ((range x).mp within).2 (Delegation.toNat_sourceOf (by omega) (by omega) within)
        rw [copy_eq_placed] at at_
        change (res = .success → (M.ptab hst).translation s₁ x = placed M hst c.pmm ((M.ptab M.nova).translation w.state _)) ∧
          ((M.ptab hst).translation s₁ x = _ ∨
            (M.ptab hst).translation s₁ x = placed M hst c.pmm ((M.ptab M.nova).translation w.state _)) at at_
        rw [from_, Option.some.inj some] at at_
        exact at_
      · cases some

/-- **The information page** is a layer. -/
theorem laid_infoOp (sound : M.Sound w.state) (rooted : M.Rooted w.state) {hip : Word}
    (request : (M.ptab hst).Request (infoAddr M) hip 0) :
    Laid M hst w (M.run (infoOp M hst hip) w) (status M (infoOp M hst hip) w = .success) [infoLayer M hst hip] := by
  have handles : (M.ptab hst).format.Handles (M.lim hst) 0 :=
    ⟨Or.inl (Nat.zero_le _), by rw [Nat.zero_min]; exact (M.lawful hst).lev_pos⟩
  generalize run : (M.ptab hst).update (M.lim hst) (infoAddr M) hip 0 { r := true, u := true, k := true } (memWb M.arch)
    (inner M.arch) w.state = out
  obtain ⟨res, s'⟩ := out
  have state : M.run (infoOp M hst hip) w = { w with state := s' } := by
    simp only [Machine.run, infoOp, run]
  have answers : status M (infoOp M hst hip) w = res := by
    simp only [status, infoOp, run]
  obtain ⟨-, -, -, -, effect⟩ := Pagetable.update_spec (M.lawful hst) (sound.wf hst) (sound.exact_ hst) request handles run
  obtain ⟨sound', rooted', others⟩ := sound.update request handles run
  rw [state, answers]
  refine laid_single sound' (rooted' rooted) (fun j other x => ?_) (fun x inside none => ?_) (fun x t inside some => ?_)
  · rw [Pagetable.translation, Pagetable.translation, others j other x]
  · unfold infoLayer at none
    split at none
    · cases none
    · rename_i out
      exact ((effect x inside).1 out).1
  · unfold infoLayer at some
    split at some
    · rename_i within
      rw [← Option.some.inj some]
      exact (effect x inside).2 within
    · cases some

/-- **Delegations one after the other** are their layers. -/
theorem laid_calls (other : hst ≠ M.nova) (junk : Nat → Cacheability × Shareability) {calls : List Delegate}
    (aligned : ∀ c ∈ calls, 2 ^ c.ord.toNat ∣ c.ssb.toNat ∧ 2 ^ c.ord.toNat ∣ c.dsb.toNat) {source : Word → Translation}
    (sound : M.Sound w.state) (rooted : M.Rooted w.state) (from_ : ∀ x, (M.ptab M.nova).translation w.state x = source x) :
    Laid M hst w (after M w (calls.map (mapOp M hst junk))) (Succeeds M w (calls.map (mapOp M hst junk)))
        (calls.map (callLayer M hst source)) ∧
      (Succeeds M w (calls.map (mapOp M hst junk)) → ∀ c ∈ calls, c.ssb.toNat + 2 ^ c.ord.toNat ≤ M.arch.num .hst) := by
  induction calls generalizing w with
  | nil => exact ⟨laid_nil sound rooted _, fun _ _ member => absurd member List.not_mem_nil⟩
  | cons c rest ih =>
      obtain ⟨here, here'⟩ := aligned c List.mem_cons_self
      obtain ⟨first, bound⟩ := laid_mapOp sound rooted junk here here' from_
      obtain ⟨later, bounds⟩ := ih (fun c' member => aligned c' (List.mem_cons_of_mem c member)) first.sound first.rooted
        fun x => (first.others M.nova (Ne.symm other) x).trans (from_ x)
      refine ⟨first.append later, fun all c' member => ?_⟩
      rcases List.mem_cons.mp member with rfl | member
      · exact bound all.1
      · exact bounds all.2 c' member

end Layers

/-! ## Permissions -/

/-- Written or executed only if `b` is: on x86 every mapping of a host space can be read, and one bit is for both
kinds of execution. -/
structure Within (a b : Permissions) : Prop where
  w : a.w = true → b.w = true
  x : (a.xu || a.xs) = true → (b.xu || b.xs) = true

theorem Within.trans {a b c : Permissions} (first : Within a b) (second : Within b c) : Within a c :=
  ⟨fun h => second.w (first.w h), fun h => second.x (first.x h)⟩

theorem granted_within (pm pmm : Permissions) : Within (pm.granted pmm) pmm := by
  unfold Permissions.granted
  dsimp only
  split
  · exact ⟨nofun, nofun⟩
  · refine ⟨fun h => (Bool.and_eq_true_iff.mp h).2, fun h => ?_⟩
    rcases (Bool.or_eq_true _ _).mp h with h | h
    · exact (Bool.or_eq_true _ _).mpr (.inl (Bool.and_eq_true_iff.mp h).2)
    · exact (Bool.or_eq_true _ _).mpr (.inr (Bool.and_eq_true_iff.mp h).2)

/-- Encoding couples reading and the two kinds of execution, and nothing else. -/
theorem encoded_within (A : Arch) (kind : MemKind) {pm : Permissions} {ca : Cacheability} {sh : Shareability}
    (ne : (A.fmt kind).format.pageAttr 0 pm ca sh ≠ 0#64) : Within ((A.fmt kind).format.encoded pm ca sh).1 pm := by
  cases A with
  | x86 mbec =>
      cases kind with
      | hst =>
          have api := (HptX86.pageAttr_ne_zero 0 pm ca sh).mp ne
          show Within (HptX86.pagePm (HptX86.pageAttr 0 pm ca sh)) pm
          rw [HptX86.pagePm_pageAttr 0 ca sh api]
          exact ⟨id, fun h => by simpa [Bool.or_comm] using h⟩
      | gst =>
          have api := (Ept.pageAttr_ne_zero mbec 0 pm ca sh).mp ne
          show Within (Ept.pagePm (Ept.pageAttr mbec 0 pm ca sh)) pm
          rw [Ept.pagePm_pageAttr mbec 0 ca sh api]
          refine ⟨id, fun h => ?_⟩
          revert h
          cases pm.xu <;> cases pm.xs <;> simp
      | dma =>
          have some := (Dpt.pageAttr_ne_zero 0 pm ca sh).mp ne
          show Within (Dpt.pagePm (Dpt.pageAttr 0 pm ca sh)) pm
          rw [Dpt.pagePm_pageAttr 0 ca sh some]
          exact ⟨id, nofun⟩
  | arm xnx =>
      have api := (Npt.pageAttr_ne_zero xnx 0 pm ca sh).mp (by cases kind <;> exact ne)
      have goal : Within (Npt.pagePm (Npt.pageAttr xnx 0 pm ca sh)) pm := by
        rw [Npt.pagePm_pageAttr xnx 0 ca sh api]
        refine ⟨id, fun h => ?_⟩
        revert h
        cases pm.xu <;> cases pm.xs <;> simp
      cases kind <;> exact goal

/-! ## Segments -/

theorem pageAddr_selector {x : Word} (aligned : 2 ^ pageBits ∣ x.toNat) : pageAddr (x >>> 12).toNat = x := by
  apply BitVec.eq_of_toNat_eq
  have small := x.isLt
  have value : (x >>> 12).toNat = x.toNat / 2 ^ 12 := by rw [BitVec.toNat_ushiftRight, Nat.shiftRight_eq_div_pow]
  rw [toNat_pageAddr (by omega), value]
  exact Nat.div_mul_cancel aligned

theorem add_sub_add_right (a b d x : Word) : x - (a + d) + (b + d) = x - a + b := by
  bv_omega

/-- A range in pieces: the pieces cover the range, and all of them lead from it to the physical range. -/
theorem segment_range (pmm : Permissions) (phys virt size x : Word) (alignedP : 2 ^ pageBits ∣ phys.toNat)
    (alignedV : 2 ^ pageBits ∣ virt.toNat) (alignedS : 2 ^ pageBits ∣ size.toNat) :
    ((∃ c ∈ segmentDelegates pmm phys virt size, InRange (pageAddr c.dsb.toNat) c.ord.toNat x) ↔
        (x - virt).toNat < size.toNat) ∧
      (∀ c ∈ segmentDelegates pmm phys virt size,
        Delegation.sourceOf c.ssb.toNat c.dsb.toNat x = x - virt + phys) ∧
      ∀ limit ≤ 2 ^ 51, (∀ c ∈ segmentDelegates pmm phys virt size, c.ssb.toNat + 2 ^ c.ord.toNat ≤ limit) →
        size = 0#64 ∨ phys.toNat + size.toNat ≤ limit * 2 ^ pageBits := by
  fun_induction segmentDelegates pmm phys virt size with
  | case1 phys virt =>
      refine ⟨iff_of_false ?_ (Nat.not_lt_zero _), fun c member => absurd member List.not_mem_nil, fun _ _ _ => .inl rfl⟩
      rintro ⟨c, member, -⟩
      exact absurd member List.not_mem_nil
  | case2 phys virt size some o ih =>
      have number : size.toNat ≠ 0 := fun zero => some (BitVec.eq_of_toNat_eq zero)
      obtain ⟨small, piece⟩ := @both_fits phys virt size some
      have value := @bothOrder_spec phys virt size some
      change o.toNat < 64 at small
      change 2 ^ o.toNat ≤ size.toNat at piece
      change o.toNat = _ at value
      obtain ⟨inP, -, pageP⟩ := Pagetable.maxOrder_spec number alignedP alignedS
      obtain ⟨inV, -, pageV⟩ := Pagetable.maxOrder_spec number alignedV alignedS
      have page : pageBits ≤ o.toNat := by
        rw [value]
        exact Nat.le_min.mpr ⟨pageP, pageV⟩
      have dvdP : 2 ^ o.toNat ∣ phys.toNat := by
        rw [value]
        exact (Nat.pow_dvd_pow 2 (Nat.min_le_left _ _)).trans inP
      have dvdV : 2 ^ o.toNat ∣ virt.toNat := by
        rw [value]
        exact (Nat.pow_dvd_pow 2 (Nat.min_le_right _ _)).trans inV
      obtain ⟨one, left⟩ := toNat_sub_piece small piece
      have order := toNat_sub_pageBits page
      have endV := add_piece_le small dvdV virt.isLt
      obtain ⟨covers, leads, bounds⟩ := ih (next_aligned page one alignedP) (next_aligned page one alignedV)
        (by rw [left]; exact (rest_aligned page alignedS).2)
      have here : InRange (pageAddr (virt >>> 12).toNat) (o - 12#32).toNat x ↔
          virt.toNat ≤ x.toNat ∧ x.toNat < virt.toNat + 2 ^ o.toNat := by
        rw [pageAddr_selector alignedV, InRange, order]
      refine ⟨?_, ?_, ?_⟩
      · have small := x.isLt
        have size_lt := size.isLt
        rw [List.exists_mem_cons_iff, here, covers, left, BitVec.toNat_sub, BitVec.toNat_sub, BitVec.toNat_add, one]
        omega
      · intro c member
        rcases List.mem_cons.mp member with rfl | member
        · show x - pageAddr (virt >>> 12).toNat + pageAddr (phys >>> 12).toNat = _
          rw [pageAddr_selector alignedV, pageAddr_selector alignedP]
        · rw [leads c member]
          exact add_sub_add_right virt phys (1#64 <<< o) x
      · intro limit few all
        right
        have first : phys.toNat / 2 ^ 12 + 2 ^ (o - 12#32).toNat ≤ limit := by
          have le := all _ List.mem_cons_self
          rwa [BitVec.toNat_ushiftRight, Nat.shiftRight_eq_div_pow] at le
        have width : 2 ^ (o - 12#32).toNat * 2 ^ pageBits = 2 ^ o.toNat := by rw [← Nat.pow_add, order]
        have base : phys.toNat / 2 ^ 12 * 2 ^ pageBits = phys.toNat := Nat.div_mul_cancel alignedP
        have room : phys.toNat + 2 ^ o.toNat ≤ limit * 2 ^ pageBits := by
          rw [← width, ← base, ← Nat.add_mul]
          exact Nat.mul_le_mul_right _ first
        have next : (phys + 1#64 <<< o).toNat = phys.toNat + 2 ^ o.toNat := by
          have top : limit * 2 ^ pageBits ≤ 2 ^ 51 * 2 ^ 12 := Nat.mul_le_mul_right _ few
          rw [BitVec.toNat_add, one]
          omega
        rcases bounds limit few fun c member => all c (List.mem_cons_of_mem _ member) with none | rest
        · have zero := congrArg BitVec.toNat none
          rw [left] at zero
          change _ = 0 at zero
          omega
        · omega

theorem size_aligned (p : Ph) : 2 ^ pageBits ∣ (size p).toNat := by
  have value : (size p).toNat = p.extent * 4096 % 2 ^ 64 := toNat_segmentSize p
  rw [value]
  change 4096 ∣ _
  omega

/-- What the segment has at an address of the root space -/
def segmentAt (ra : Word) (p : Ph) (x : Word) : Option Word :=
  if p.type = 1#32 ∧ (x - virt p).toNat < (size p).toNat then some (x - virt p + phys ra p) else none

/-- What the image has at an address of the root space: the last segment decides. -/
def imageAt (ra : Word) (segments : List Ph) : Word → Option (Permissions × Word) :=
  overlay (segments.map fun p x => (segmentAt ra p x).map fun y => some (p.perm, y)) fun _ => none

section Segments

variable {ι : Type} {M : Machine ι} {hst : ι} {source : Word → Translation} {ra rootS rootE x : Word} {p : Ph} {segments : List Ph}

theorem loadSegment_eq {calls : List Delegate} (mapped : loadSegment ra p = .mapped calls) :
    p.type = 1#32 ∧ calls = segmentDelegates p.perm (phys ra p) (virt p) (size p) := by
  unfold loadSegment at mapped
  split at mapped
  · cases mapped
  · rename_i type
    split at mapped
    · cases mapped
    · exact ⟨not_not.mp type, (Loaded.mapped.inj mapped).symm⟩

theorem loadSegment_skipped (skipped : loadSegment ra p = .skipped) : p.type ≠ 1#32 := by
  unfold loadSegment at skipped
  split at skipped
  · assumption
  · split at skipped <;> cases skipped

/-- The calls for a segment are one layer. -/
theorem overlay_segment (type : p.type = 1#32) (base : Word → Translation) :
    overlay ((segmentDelegates p.perm (phys ra p) (virt p) (size p)).map (callLayer M hst source)) base x =
      ((segmentAt ra p x).map fun y => placed M hst p.perm (source y)).getD (base x) := by
  obtain ⟨covers, leads, -⟩ := segment_range p.perm (phys ra p) (virt p) (size p) x (dvd_alignDn _) (dvd_alignDn _)
    (size_aligned p)
  obtain ⟨-, perms⟩ := segment_pages p.perm (phys ra p) (virt p) (size p) (dvd_alignDn _) (dvd_alignDn _) (size_aligned p)
  have some_iff : (∃ layer ∈ (segmentDelegates p.perm (phys ra p) (virt p) (size p)).map (callLayer M hst source),
      (layer x).isSome) ↔ (x - virt p).toNat < (size p).toNat := by
    rw [← covers]
    constructor
    · rintro ⟨layer, member, some⟩
      obtain ⟨c, called, rfl⟩ := List.mem_map.mp member
      refine ⟨c, called, ?_⟩
      by_contra out
      rw [callLayer, if_neg out] at some
      cases some
    · rintro ⟨c, member, within⟩
      exact ⟨_, List.mem_map_of_mem member, by rw [callLayer, if_pos within]; rfl⟩
  rw [overlay_agree (v := placed M hst p.perm (source (x - virt p + phys ra p)))]
  · unfold segmentAt
    by_cases within : (x - virt p).toNat < (size p).toNat
    · rw [if_pos (some_iff.mpr within), if_pos ⟨type, within⟩]
      rfl
    · rw [if_neg fun h => within (some_iff.mp h), if_neg fun h => within h.2]
      rfl
  · intro layer member t is
    obtain ⟨c, called, rfl⟩ := List.mem_map.mp member
    unfold callLayer at is
    split at is
    · rw [← Option.some.inj is, leads c called, (perms c called).1]
    · cases is

/-- **The calls of the loop** are the segments of the image. -/
theorem overlay_load (done : (load ra segments rootS rootE).done = true) (base : Word → Translation) :
    overlay ((load ra segments rootS rootE).calls.map (callLayer M hst source)) base x =
      match imageAt ra segments x with
      | some (pmm, y) => placed M hst pmm (source y)
      | none => base x := by
  have whole : overlay ((load ra segments rootS rootE).calls.map (callLayer M hst source)) base x =
      overlay (segments.map fun p x => (segmentAt ra p x).map fun y => placed M hst p.perm (source y)) base x := by
    induction segments generalizing base rootS rootE with
    | nil => rfl
    | cons p rest ih =>
        unfold load at done ⊢
        rw [List.map_cons, overlay_cons]
        cases loaded : loadSegment ra p with
        | skipped =>
            simp only [loaded] at done ⊢
            rw [ih done]
            refine overlay_congr ?_
            rw [segmentAt, if_neg fun h => loadSegment_skipped loaded h.1]
            rfl
        | refused =>
            simp only [loaded] at done
            cases done
        | mapped calls =>
            obtain ⟨type, rfl⟩ := loadSegment_eq loaded
            simp only [loaded] at done ⊢
            rw [List.map_append, overlay_append, ih done]
            exact overlay_congr (overlay_segment type base)
  rw [whole, imageAt]
  have mapped := @overlay_map _ _ (segments.map fun p x => (segmentAt ra p x).map fun y => some (p.perm, y))
    (fun _ => none) x _ fun o : Option (Permissions × Word) =>
      match o with
      | some (pmm, y) => placed M hst pmm (source y)
      | none => base x
  rw [← mapped, List.map_map]
  refine (overlay_congr rfl).trans (congrArg (fun layers => overlay layers (fun _ => base x) x) (List.map_congr_left fun p _ => ?_))
  funext x'
  simp only [Function.comp_apply, Option.map_map]
  rfl

/-- A call is one for a segment. -/
theorem load_calls {c : Delegate} (called : c ∈ (load ra segments rootS rootE).calls) :
    ∃ p ∈ segments, p.type = 1#32 ∧ c ∈ segmentDelegates p.perm (phys ra p) (virt p) (size p) := by
  induction segments generalizing rootS rootE with
  | nil => exact absurd called List.not_mem_nil
  | cons p rest ih =>
      unfold load at called
      have later (found : ∃ p ∈ rest, p.type = 1#32 ∧ c ∈ segmentDelegates p.perm (phys ra p) (virt p) (size p)) :
          ∃ p' ∈ p :: rest, p'.type = 1#32 ∧ c ∈ segmentDelegates p'.perm (phys ra p') (virt p') (size p') := by
        obtain ⟨p', member, is⟩ := found
        exact ⟨p', List.mem_cons_of_mem p member, is⟩
      cases loaded : loadSegment ra p with
      | skipped =>
          simp only [loaded] at called
          exact later (ih called)
      | refused =>
          simp only [loaded] at called
          exact absurd called List.not_mem_nil
      | mapped calls =>
          obtain ⟨type, rfl⟩ := loadSegment_eq loaded
          simp only [loaded] at called
          rcases List.mem_append.mp called with here | there
          · exact ⟨p, List.mem_cons_self, type, here⟩
          · exact later (ih there)

theorem load_aligned {c : Delegate} (called : c ∈ (load ra segments rootS rootE).calls) :
    2 ^ c.ord.toNat ∣ c.ssb.toNat ∧ 2 ^ c.ord.toNat ∣ c.dsb.toNat := by
  obtain ⟨p, -, -, member⟩ := load_calls called
  exact ((segment_pages p.perm (phys ra p) (virt p) (size p) (dvd_alignDn _) (dvd_alignDn _) (size_aligned p)).2 c member).2

/-- What a call writes is in a segment. -/
theorem load_origin {layer : Word → Option Translation} {t : Translation}
    (member : layer ∈ (load ra segments rootS rootE).calls.map (callLayer M hst source)) (is : layer x = some t) :
    ∃ p ∈ segments, ∃ y, segmentAt ra p x = some y ∧ t = placed M hst p.perm (source y) := by
  obtain ⟨c, called, rfl⟩ := List.mem_map.mp member
  obtain ⟨p, in_, type, mem⟩ := load_calls called
  obtain ⟨covers, leads, -⟩ := segment_range p.perm (phys ra p) (virt p) (size p) x (dvd_alignDn _) (dvd_alignDn _)
    (size_aligned p)
  obtain ⟨-, perms⟩ := segment_pages p.perm (phys ra p) (virt p) (size p) (dvd_alignDn _) (dvd_alignDn _) (size_aligned p)
  unfold callLayer at is
  split at is
  · rename_i within
    refine ⟨p, in_, x - virt p + phys ra p, if_pos ⟨type, covers.mp ⟨c, mem, within⟩⟩, ?_⟩
    rw [← Option.some.inj is, leads c mem, (perms c mem).1]
  · cases is

/-- `root_s` only decreases, and `root_e` only increases. -/
theorem load_widens (ra : Word) (segments : List Ph) (rootS rootE : Word) :
    (load ra segments rootS rootE).rootS.toNat ≤ rootS.toNat ∧ rootE.toNat ≤ (load ra segments rootS rootE).rootE.toNat := by
  induction segments generalizing rootS rootE with
  | nil => exact ⟨Nat.le_refl _, Nat.le_refl _⟩
  | cons p rest ih =>
      unfold load
      cases loadSegment ra p with
      | skipped => exact ih rootS rootE
      | refused => exact ⟨Nat.le_refl _, Nat.le_refl _⟩
      | mapped calls =>
          obtain ⟨low, high⟩ := ih (if phys ra p < rootS then phys ra p else rootS)
            (if rootE < phys ra p + size p then phys ra p + size p else rootE)
          refine ⟨Nat.le_trans low ?_, Nat.le_trans ?_ high⟩
          · split
            · rename_i less
              exact Nat.le_of_lt less
            · exact Nat.le_refl _
          · split
            · rename_i less
              exact Nat.le_of_lt less
            · exact Nat.le_refl _

/-- `root_s` and `root_e` enclose every segment. -/
theorem load_encloses (done : (load ra segments rootS rootE).done = true) (member : p ∈ segments) (type : p.type = 1#32) :
    (load ra segments rootS rootE).rootS.toNat ≤ (phys ra p).toNat ∧
      (phys ra p + size p).toNat ≤ (load ra segments rootS rootE).rootE.toNat ∧
      ∀ c ∈ segmentDelegates p.perm (phys ra p) (virt p) (size p), c ∈ (load ra segments rootS rootE).calls := by
  induction segments generalizing rootS rootE with
  | nil => exact absurd member List.not_mem_nil
  | cons p' rest ih =>
      unfold load at done ⊢
      cases loaded : loadSegment ra p' with
      | refused =>
          simp only [loaded] at done
          cases done
      | skipped =>
          simp only [loaded] at done ⊢
          rcases List.mem_cons.mp member with rfl | there
          · exact absurd type (loadSegment_skipped loaded)
          · exact ih done there
      | mapped calls =>
          obtain ⟨-, rfl⟩ := loadSegment_eq loaded
          simp only [loaded] at done ⊢
          rcases List.mem_cons.mp member with rfl | there
          · obtain ⟨low, high⟩ := load_widens ra rest (if phys ra p < rootS then phys ra p else rootS)
              (if rootE < phys ra p + size p then phys ra p + size p else rootE)
            refine ⟨Nat.le_trans low ?_, Nat.le_trans ?_ high, fun c called => List.mem_append_left _ called⟩
            · split
              · exact Nat.le_refl _
              · rename_i least
                exact Nat.le_of_not_lt least
            · split
              · exact Nat.le_refl _
              · rename_i most
                exact Nat.le_of_not_lt most
          · obtain ⟨low, high, calls⟩ := ih done there
            exact ⟨low, high, fun c called => List.mem_append_right _ (calls c called)⟩

/-- What the image has somewhere is what one of its segments has there. -/
theorem imageAt_segment {pmm : Permissions} {y : Word} (is : imageAt ra segments x = some (pmm, y)) :
    ∃ p ∈ segments, p.perm = pmm ∧ segmentAt ra p x = some y := by
  rcases overlay_origin (segments.map fun p x => (segmentAt ra p x).map fun y => some (p.perm, y)) (fun _ => none) x with
    none | ⟨layer, member, some⟩
  · cases none.symm.trans is
  · obtain ⟨p, in_, rfl⟩ := List.mem_map.mp member
    rw [show overlay _ _ x = _ from is] at some
    obtain ⟨y', at_, both⟩ := Option.map_eq_some_iff.mp some
    obtain ⟨perm, rfl⟩ := Prod.mk.inj (Option.some.inj both)
    exact ⟨p, in_, perm, at_⟩

end Segments

/-! ## The root space -/

section Root

variable {ι : Type} [DecidableEq ι] (M : Machine ι) (m : Memory) (ra hip : Word) (objects : Bool) {hst : ι}
  (junk : Nat → Cacheability × Shareability) {w : World}

/-- What the operations from the loop on write -/
def layers (hst : ι) (source : Word → Translation) (l : Load) : List (Word → Option Translation) :=
  l.calls.map (callLayer M hst source) ++ if l.done then [infoLayer M hst hip] else []

theorem laid_loadOps (sound : M.Sound w.state) (rooted : M.Rooted w.state) (other : hst ≠ M.nova)
    (request : (M.ptab hst).Request (infoAddr M) hip 0) :
    Laid M hst w (after M w (loadOps M hip hst junk (loaded m ra))) (Succeeds M w (loadOps M hip hst junk (loaded m ra)))
        (layers M hip hst ((M.ptab M.nova).translation w.state) (loaded m ra)) ∧
      (Succeeds M w (loadOps M hip hst junk (loaded m ra)) →
        ∀ c ∈ (loaded m ra).calls, c.ssb.toNat + 2 ^ c.ord.toNat ≤ M.arch.num .hst) := by
  have aligned : ∀ c ∈ (loaded m ra).calls, 2 ^ c.ord.toNat ∣ c.ssb.toNat ∧ 2 ^ c.ord.toNat ∣ c.dsb.toNat :=
    fun c called => load_aligned called
  obtain ⟨first, bounds⟩ := laid_calls other junk aligned sound rooted fun x => rfl
  unfold loadOps layers
  cases done : (loaded m ra).done with
  | false =>
      simp only [Bool.false_eq_true, if_false, List.append_nil]
      exact ⟨first, bounds⟩
  | true =>
      simp only [if_true]
      have info := laid_infoOp first.sound first.rooted request
      have both := first.append info
      rw [after, List.foldl_append]
      refine ⟨both.weaken fun all => ?_, fun all => bounds (Along.append.mp all).1⟩
      exact ⟨(Along.append.mp all).1, (Along.append.mp all).2.1⟩

omit [DecidableEq ι] in
/-- `create_root` gives up before it looks at the segments, or does the operations of the loop. -/
theorem createRoot_cases (hst : ι) :
    ((createRoot M m ra hip objects hst junk).ops = [] ∧
        ∀ ip sp, (createRoot M m ra hip objects hst junk).outcome ≠ .started ip sp) ∨
      ((createRoot M m ra hip objects hst junk).ops = loadOps M hip hst junk (loaded m ra) ∧
        (createRoot M m ra hip objects hst junk).rootS = (loaded m ra).rootS ∧
        (createRoot M m ra hip objects hst junk).rootE = (loaded m ra).rootE ∧
        ∀ ip sp, (createRoot M m ra hip objects hst junk).outcome = .started ip sp → (loaded m ra).done = true) := by
  unfold createRoot
  split
  · exact .inl ⟨rfl, nofun⟩
  · split
    · exact .inl ⟨rfl, nofun⟩
    · split
      · exact .inl ⟨rfl, nofun⟩
      · refine .inr ⟨rfl, rfl, rfl, fun ip sp started => ?_⟩
        by_contra refused
        rw [if_neg refused] at started
        cases started

omit [DecidableEq ι] in
theorem placed_eq_some {pmm : Permissions} {q : Word} {pm : Permissions} {ca : Cacheability} {sh : Shareability} {t}
    (is : placed M hst pmm (some (q, pm, ca, sh)) = some t) :
    t = (q, (M.ptab hst).format.encoded (pm.granted pmm) (memWb M.arch) (inner M.arch)) ∧
      (M.ptab hst).format.pageAttr 0 (pm.granted pmm) (memWb M.arch) (inner M.arch) ≠ 0#64 := by
  unfold placed at is
  dsimp only at is
  split at is
  · cases is
  · rename_i ne
    exact ⟨(Option.some.inj is).symm, ne⟩

omit [DecidableEq ι] in
/-- The operations of `create_root` are such as callers ensure. -/
theorem admissible_loadOps (host : M.kind hst = .hst) (request : (M.ptab hst).Request (infoAddr M) hip 0) :
    ∀ op ∈ loadOps M hip hst junk (loaded m ra), M.Admissible op := by
  intro op member
  rcases List.mem_append.mp member with call | info
  · obtain ⟨c, called, rfl⟩ := List.mem_map.mp call
    obtain ⟨aligned, aligned'⟩ := load_aligned called
    exact ⟨M.host, aligned, aligned'⟩
  · split at info
    · obtain rfl := List.mem_singleton.mp info
      exact ⟨host, request⟩
    · exact absurd info List.not_mem_nil

/-- **Kernel memory stays isolated**, if it was before. -/
theorem isolated_loadOps (sound : M.Sound w.state) (rooted : M.Rooted w.state) (host : M.kind hst = .hst)
    (request : (M.ptab hst).Request (infoAddr M) hip 0) (isolated : M.Isolated w) :
    M.Isolated (after M w (loadOps M hip hst junk (loaded m ra))) := by
  refine (Along.foldl (I := fun w => M.Kept w ∧ M.Rooted w.state) (G := fun _ op => M.Admissible op)
    (fun w op inv good => (Machine.kept_run inv.1 inv.2 good).1) _ w ⟨⟨sound, isolated⟩, rooted⟩ ?_).1.isolated
  exact Along.of_forall (admissible_loadOps M m ra hip junk host request)

/-- **Where the mappings of the root space come from.**  For every image, whatever `create_root` does with it and
whichever operations fail: other spaces stay as they are, and a mapping of the root space was there before, is the
information page, or is the mapping without `K` that `Space_hst::nova` has at the place that a segment of the image
names, with permissions of that mapping, and to be written or executed only if the segment is.  If no mapping without
`K` led into the kernel image before, none does now. -/
theorem root_origins (sound : M.Sound w.state) (rooted : M.Rooted w.state) (other : hst ≠ M.nova)
    (request : (M.ptab hst).Request (infoAddr M) hip 0) :
    let w' := after M w (createRoot M m ra hip objects hst junk).ops
    M.Sound w'.state ∧ M.Rooted w'.state ∧
      (∀ j, j ≠ hst → ∀ x, (M.ptab j).translation w'.state x = (M.ptab j).translation w.state x) ∧
      (∀ x q d, (M.ptab hst).Inside x → (M.ptab hst).translation w'.state x = some (q, d) →
        (M.ptab hst).translation w.state x = some (q, d) ∨
          (InRange (infoAddr M) 0 x ∧ q = hip + (x - infoAddr M)) ∨
          ∃ p ∈ table m ra, ∃ y pm ca sh, segmentAt ra p x = some y ∧
            (M.ptab M.nova).translation w.state y = some (q, pm, ca, sh) ∧ pm.k = false ∧ d.1.Le pm ∧ Within d.1 p.perm) ∧
      (M.kind hst = .hst → M.Isolated w → M.Isolated w') := by
  rcases createRoot_cases M m ra hip objects junk hst with ⟨none, -⟩ | ⟨ops, -⟩
  · rw [none]
    exact ⟨sound, rooted, fun _ _ _ => rfl, fun x q d _ mapped => .inl mapped, fun _ isolated => isolated⟩
  · rw [ops]
    obtain ⟨laid, -⟩ := laid_loadOps M m ra hip junk sound rooted other request
    refine ⟨laid.sound, laid.rooted, laid.others, fun x q d inside mapped => ?_,
      fun host isolated => isolated_loadOps M m ra hip junk sound rooted host request isolated⟩
    rcases laid.origin x inside with same | ⟨layer, member, is⟩
    · exact .inl (same.symm.trans mapped)
    · right
      rw [mapped] at is
      rcases List.mem_append.mp member with call | info
      · right
        obtain ⟨p, in_, y, at_, from_⟩ := load_origin call is
        have formatS : (M.ptab M.nova).format = (M.arch.fmt .hst).format := by
          rw [← M.host]
          exact M.format M.nova
        have copied := from_
        rw [← copy_eq_placed M hst 0 p.perm junk] at copied
        obtain ⟨pm, ca, sh, source, user, le⟩ := Machine.copy_mapped M.arch (M.kind hst) formatS (M.format hst)
          (sound.exact_ M.nova) copied.symm
        change (M.ptab M.nova).translation w.state y = _ at source
        rw [source] at from_
        obtain ⟨written, ne⟩ := placed_eq_some M from_.symm
        obtain rfl := (Prod.mk.inj written).2
        refine ⟨p, in_, y, pm, ca, sh, at_, source, user, le, ?_⟩
        rw [M.format hst] at ne ⊢
        exact (encoded_within M.arch (M.kind hst) ne).trans (granted_within pm p.perm)
      · left
        split at info
        · obtain rfl := List.mem_singleton.mp info
          unfold infoLayer at is
          split at is
          · rename_i within
            have written := Option.some.inj is
            rw [Pagetable.target] at written
            split at written
            · cases written
            · exact ⟨within, (Prod.mk.inj (Option.some.inj written)).1.symm⟩
          · cases is
        · exact absurd info List.not_mem_nil

/-- **The root image is loaded.**  If the root EC starts and no operation failed, then the root space is the image:
at an address of a segment it has what `Space_hst::nova` has at the corresponding physical address, with the
permissions of the segment, and the last segment decides; the information page is on top, and everything else is as it
was before.  The whole image is between `root_s` and `root_e`, also what is hidden by later segments. -/
theorem root_image (sound : M.Sound w.state) (rooted : M.Rooted w.state) (other : hst ≠ M.nova)
    (request : (M.ptab hst).Request (infoAddr M) hip 0) (ip sp : Word)
    (started : (createRoot M m ra hip objects hst junk).outcome = .started ip sp)
    (succeeds : Succeeds M w (createRoot M m ra hip objects hst junk).ops) :
    let r := createRoot M m ra hip objects hst junk
    (∀ x, (M.ptab hst).Inside x → (M.ptab hst).translation (after M w r.ops).state x =
        if InRange (infoAddr M) 0 x then
          (M.ptab hst).target (infoAddr M) hip { r := true, u := true, k := true } (memWb M.arch) (inner M.arch) x
        else match imageAt ra (table m ra) x with
          | some (pmm, y) => placed M hst pmm ((M.ptab M.nova).translation w.state y)
          | none => (M.ptab hst).translation w.state x) ∧
      (∀ x pmm y, imageAt ra (table m ra) x = some (pmm, y) → r.rootS.toNat ≤ y.toNat ∧ y.toNat < r.rootE.toNat) ∧
      ∀ p ∈ table m ra, p.type = 1#32 → size p ≠ 0#64 →
        r.rootS.toNat ≤ (phys ra p).toNat ∧ (phys ra p).toNat + (size p).toNat ≤ r.rootE.toNat := by
  rcases createRoot_cases M m ra hip objects junk hst with ⟨-, none⟩ | ⟨ops, low, high, goes⟩
  · exact absurd started (none ip sp)
  · have done := goes ip sp started
    obtain ⟨laid, bounds⟩ := laid_loadOps M m ra hip junk sound rooted other request
    intro r
    rw [ops] at succeeds
    rw [show r.ops = _ from ops, show r.rootS = _ from low, show r.rootE = _ from high]
    have encloses : ∀ p ∈ table m ra, p.type = 1#32 → size p ≠ 0#64 →
        (loaded m ra).rootS.toNat ≤ (phys ra p).toNat ∧ (phys ra p).toNat + (size p).toNat ≤ (loaded m ra).rootE.toNat := by
      intro p member type some
      obtain ⟨lowest, highest, called⟩ := load_encloses done member type
      obtain ⟨-, -, limits⟩ := segment_range p.perm (phys ra p) (virt p) (size p) 0#64 (dvd_alignDn _) (dvd_alignDn _)
        (size_aligned p)
      have few := (Delegation.num_le M.arch .hst).2
      have fits := (limits (M.arch.num .hst) few fun c piece => bounds succeeds c (called c piece)).resolve_left some
      have top : M.arch.num .hst * 2 ^ pageBits ≤ 2 ^ 51 * 2 ^ 12 := Nat.mul_le_mul_right _ few
      have sum : (phys ra p + size p).toNat = (phys ra p).toNat + (size p).toNat := by
        rw [BitVec.toNat_add]
        omega
      exact ⟨lowest, sum ▸ highest⟩
    refine ⟨fun x inside => ?_, fun x pmm y at_ => ?_, encloses⟩
    · rw [laid.laid succeeds x inside, layers, if_pos done, overlay_append, overlay_cons, overlay_nil, infoLayer]
      split
      · rfl
      · exact overlay_load done _
    · obtain ⟨p, member, -, is⟩ := imageAt_segment at_
      unfold segmentAt at is
      split at is
      · rename_i within
        have some : size p ≠ 0#64 := by
          intro none
          rw [none] at within
          exact Nat.not_lt_zero _ within.2
        obtain ⟨lowest, highest⟩ := encloses p member within.1 some
        have value := congrArg BitVec.toNat (Option.some.inj is)
        have small := (loaded m ra).rootE.isLt
        have inside := within.2
        have place : y.toNat = (x - virt p).toNat + (phys ra p).toNat := by
          rw [← value, BitVec.toNat_add]
          omega
        rw [place]
        exact ⟨Nat.le_trans lowest (Nat.le_add_left _ _), by omega⟩
      · cases is

end Root

/-! ## An image of one segment -/

instance {ι : Type} [DecidableEq ι] (M : Machine ι) (w : World) (ops : List (MemOp ι)) : Decidable (Succeeds M w ops) :=
  Along.decidable w ops

theorem spaces_image : 0x200000 < 0x400000 := by decide

theorem spaces_fits : 0x400000 ≤ (Arch.x86 false).num .hst * 2 ^ pageBits := by decide

theorem spaces_aligned : 2 ^ pageBits ∣ 0x200000 ∧ 2 ^ pageBits ∣ 0x400000 := by decide

/-- `Space_hst::nova` and the space of the root PD, whose tables start in one page -/
def spaces : Machine Bool where
  arch := .x86 false
  kind _ := .hst
  ptab i := { format := hptX86, root := (0x1000#64, if i then 1 else 0) }
  limits _ := []
  nova := false
  hpas := 0x200000
  hpae := 0x400000
  format _ := rfl
  host := rfl
  image := spaces_image
  image_fits := spaces_fits
  image_aligned := spaces_aligned

def pages : List Word := (List.range 16).map fun i => BitVec.ofNat 64 (0x2000 + 0x1000 * i)

/-- `Space_hst::nova` maps 2MB at 4MB, and the root space has a UTCB. -/
def novaMaps : State := ((spaces.ptab false).update (spaces.lim false) 0x400000#64 0x400000#64 9
  { r := true, w := true, xu := true, xs := true, u := true } 0#3 0#2 (Pagetable.seedState pages)).2

def utcbMaps : State := ((spaces.ptab true).update (spaces.lim true) 0x7fffffffe000#64 0x300000#64 0
  { r := true, w := true, u := true, k := true } 0#3 0#2 novaMaps).2

theorem spaces_tree (i : Bool) : (spaces.ptab i).tree (Pagetable.seedState pages) = .hole :=
  treeOf_hole _ (Format.kind_zero _ _)

theorem spaces_seed : spaces.Sound (Pagetable.seedState pages) where
  wf i := by
    refine ⟨?_, ?_, List.mem_singleton_self _, ?_, ?_, hptX86_lawful.root_large⟩
    · rw [spaces_tree]
      exact List.nodup_nil
    · rw [spaces_tree]
      exact fun _ member => absurd member List.not_mem_nil
    · rw [spaces_tree]
      exact List.not_mem_nil
    · rw [spaces_tree]
      trivial
  exact_ i := by
    unfold Pagetable.Exact
    rw [spaces_tree]
    trivial
  apart i j ne := by
    refine ⟨?_, ?_, ?_, fun same => ne ?_⟩
    · rw [spaces_tree]
      exact fun _ member => absurd member List.not_mem_nil
    · rw [spaces_tree]
      exact List.not_mem_nil
    · rw [spaces_tree]
      exact List.not_mem_nil
    · revert same ne
      cases i <;> cases j <;> decide
  parted i := ⟨fun _ member => absurd member List.not_mem_nil, fun _ member => absurd member List.not_mem_nil, List.not_mem_nil⟩

theorem novaMaps_request : (spaces.ptab false).Request 0x400000#64 0x400000#64 9 := ⟨by decide, by decide, by decide, by decide⟩

theorem utcbMaps_request : (spaces.ptab true).Request 0x7fffffffe000#64 0x300000#64 0 :=
  ⟨by decide, by decide, by decide, by decide⟩

/-- Both updates succeed, and each root has a table. -/
theorem spaces_answers :
    ((spaces.ptab false).update (spaces.lim false) 0x400000#64 0x400000#64 9
      { r := true, w := true, xu := true, xs := true, u := true } 0#3 0#2 (Pagetable.seedState pages)).1 = .success ∧
    ((spaces.ptab true).update (spaces.lim true) 0x7fffffffe000#64 0x300000#64 0
      { r := true, w := true, u := true, k := true } 0#3 0#2 novaMaps).1 = .success ∧
    hptX86.kind hptX86.lev (utcbMaps.load (0x1000#64, 0)) = .table 0x2000#64 ∧
    hptX86.kind hptX86.lev (utcbMaps.load (0x1000#64, 1)) = .table 0x5000#64 := by
  decide +kernel

theorem novaMaps_run : (spaces.ptab false).update (spaces.lim false) 0x400000#64 0x400000#64 9
    { r := true, w := true, xu := true, xs := true, u := true } 0#3 0#2 (Pagetable.seedState pages) = (.success, novaMaps) := by
  rw [← spaces_answers.1]
  rfl

theorem utcbMaps_run : (spaces.ptab true).update (spaces.lim true) 0x7fffffffe000#64 0x300000#64 0
    { r := true, w := true, u := true, k := true } 0#3 0#2 novaMaps = (.success, utcbMaps) := by
  rw [← spaces_answers.2.1]
  rfl

theorem spaces_sound : spaces.Sound utcbMaps ∧ spaces.Rooted utcbMaps := by
  refine ⟨((spaces_seed.update novaMaps_request (by decide) novaMaps_run).1.update utcbMaps_request (by decide) utcbMaps_run).1,
    fun i _ => ?_⟩
  cases i with
  | false => exact Delegation.level_of_root hptX86_lawful.lev_pos (T := spaces.ptab false) ⟨0x2000#64, spaces_answers.2.2.1⟩
  | true => exact Delegation.level_of_root hptX86_lawful.lev_pos (T := spaces.ptab true) ⟨0x5000#64, spaces_answers.2.2.2⟩

/-- `Space_hst::nova` maps what is behind the kernel image, and the UTCB has `K`. -/
theorem spaces_isolated : spaces.Isolated { state := utcbMaps, opened := [] } := by
  intro i x q pm ca sh hx mapped user image
  exfalso
  have inside := spaces.num_inside i hx
  obtain ⟨sound, -, first⟩ := spaces_seed.update novaMaps_request (by decide) novaMaps_run
  obtain ⟨-, -, second⟩ := sound.update utcbMaps_request (by decide) utcbMaps_run
  have empty : ∀ i x, (spaces.ptab i).translation (Pagetable.seedState pages) x = none := by
    intro i x
    rw [Pagetable.translation, Pagetable.find, spaces_tree]
    rfl
  cases i with
  | false =>
      obtain ⟨-, -, -, -, effect⟩ := Pagetable.update_spec (spaces.lawful false) (spaces_seed.wf false) (spaces_seed.exact_ false)
        novaMaps_request (by decide) novaMaps_run
      have same : (spaces.ptab false).translation utcbMaps x = (spaces.ptab false).translation novaMaps x := by
        rw [Pagetable.translation, Pagetable.translation, second false (by decide) x]
      have now := same.symm.trans mapped
      by_cases here : InRange 0x400000#64 9 x
      · rcases ((effect x inside).2 here).2 with old | new
        · cases ((empty false x).symm.trans old.symm).trans now
        · have written := new.symm.trans now
          rw [Pagetable.target] at written
          split at written
          · cases written
          · obtain ⟨rfl, -⟩ := Prod.mk.inj (Option.some.inj written)
            have low : 0x400000 ≤ x.toNat := here.1
            have high : x.toNat < 0x400000 + 2 ^ 21 := here.2
            have below : (0x400000#64 + (x - 0x400000#64)).toNat < 0x400000 := image.2
            rw [BitVec.add_comm, BitVec.sub_add_cancel] at below
            omega
      · cases ((empty false x).symm.trans ((effect x inside).1 here).1.symm).trans now
  | true =>
      obtain ⟨-, -, -, -, effect⟩ := Pagetable.update_spec (spaces.lawful true) (sound.wf true) (sound.exact_ true)
        utcbMaps_request (by decide) utcbMaps_run
      have none : (spaces.ptab true).translation novaMaps x = none := by
        rw [← empty true x, Pagetable.translation, Pagetable.translation, first true (by decide) x]
      by_cases here : InRange 0x7fffffffe000#64 0 x
      · rcases ((effect x inside).2 here).2 with old | new
        · cases (none.symm.trans old.symm).trans mapped
        · have written := new.symm.trans mapped
          rw [Pagetable.target] at written
          split at written
          · cases written
          · obtain ⟨-, encoded⟩ := Prod.mk.inj (Option.some.inj written)
            have mark := congrArg (fun d : Permissions × Cacheability × Shareability => d.1.k) encoded
            rw [user] at mark
            exact absurd mark (by decide)
      · cases (none.symm.trans ((effect x inside).1 here).1.symm).trans mapped

/-- An image with two pages that are mapped at 64KB -/
def tinyImage : Memory := fun a =>
  match a - 0x400000 with
  | 0 => 0x7f | 1 => 0x45 | 2 => 0x4c | 3 => 0x46 | 4 => 2 | 5 => 1 | 6 => 1 | 16 => 2 | 18 => 0x3e
  | 26 => 1 | 32 => 64 | 56 => 1
  | 64 => 1 | 68 => 5 | 73 => 0x10 | 82 => 1 | 97 => 0x18 | 105 => 0x18
  | _ => 0

def tinyRoot : Root Bool := createRoot spaces tinyImage 0x400000#64 0x310000#64 true true fun _ => (0#3, 0#2)

/-- What the new space maps at the second page, and how `create_root` ends -/
theorem tinyRoot_answers :
    ((spaces.ptab true).translation (after spaces { state := utcbMaps, opened := [] } tinyRoot.ops).state
      0x11000#64).isSome = true ∧
    (spaces.ptab true).translation utcbMaps 0x11000#64 = none ∧
    imageAt 0x400000#64 (table tinyImage 0x400000#64) 0x11234#64 =
      some ({ r := true, xu := true, u := true }, 0x402234#64) ∧
    tinyRoot.outcome = .started 0x10000#64 0x7ffffffff000#64 ∧
    Succeeds spaces { state := utcbMaps, opened := [] } tinyRoot.ops ∧
    tinyRoot.rootS = 0x401000#64 ∧ tinyRoot.rootE = 0x403000#64 := by
  decide +kernel

theorem tinyRoot_info : (spaces.ptab true).Request (infoAddr spaces) 0x310000#64 0 :=
  ⟨by decide, by decide, by decide, by decide⟩

theorem tinyRoot_apart (x : Word) (low : x < 0x20000#64) : ¬ InRange (infoAddr spaces) 0 x :=
  fun in_ => absurd in_.1 (Nat.not_le.mpr (Nat.lt_of_lt_of_le low (by decide)))

/-- The second page of the segment: it is mapped, and it was not before.  No space maps the kernel image. -/
theorem root_origins_tiny :
    spaces.Isolated (after spaces { state := utcbMaps, opened := [] } tinyRoot.ops) ∧
    ((spaces.ptab true).translation (after spaces { state := utcbMaps, opened := [] } tinyRoot.ops).state 0x11000#64).isSome ∧
      ∃ q d, (spaces.ptab true).translation (after spaces { state := utcbMaps, opened := [] } tinyRoot.ops).state 0x11000#64 =
        some (q, d) ∧ ∃ p ∈ table tinyImage 0x400000#64, ∃ y pm ca sh, segmentAt 0x400000#64 p 0x11000#64 = some y ∧
          (spaces.ptab false).translation utcbMaps y = some (q, pm, ca, sh) ∧ pm.k = false ∧ d.1.Le pm ∧ Within d.1 p.perm := by
  obtain ⟨mapped, before, -⟩ := tinyRoot_answers
  obtain ⟨⟨q, d⟩, is⟩ := Option.isSome_iff_exists.mp mapped
  obtain ⟨-, -, -, origin, isolated⟩ := root_origins spaces tinyImage 0x400000#64 0x310000#64 true (fun _ => (0#3, 0#2))
    (w := { state := utcbMaps, opened := [] }) spaces_sound.1 spaces_sound.2 (by decide) tinyRoot_info
  refine ⟨isolated rfl spaces_isolated, mapped, q, d, is, ?_⟩
  rcases origin 0x11000#64 q d (show _ < _ by decide) is with old | ⟨info, -⟩ | from_
  · cases before.symm.trans old
  · exact absurd info (tinyRoot_apart _ (by decide))
  · exact from_

theorem root_image_tiny :
    (spaces.ptab true).translation (after spaces { state := utcbMaps, opened := [] } tinyRoot.ops).state 0x11234#64 =
        placed spaces true { r := true, xu := true, u := true } ((spaces.ptab false).translation utcbMaps 0x402234#64) ∧
      tinyRoot.rootS = 0x401000#64 ∧ tinyRoot.rootE = 0x403000#64 ∧
      tinyRoot.rootS.toNat ≤ 0x402234 ∧ 0x402234 < tinyRoot.rootE.toNat ∧
      ∀ p ∈ table tinyImage 0x400000#64, p.type = 1#32 → size p ≠ 0#64 → tinyRoot.rootS.toNat ≤ (phys 0x400000#64 p).toNat ∧
        (phys 0x400000#64 p).toNat + (size p).toNat ≤ tinyRoot.rootE.toNat := by
  obtain ⟨-, -, at_, started, succeeds, lowest, highest⟩ := tinyRoot_answers
  obtain ⟨exact_, visible, encloses⟩ := root_image spaces tinyImage 0x400000#64 0x310000#64 true (fun _ => (0#3, 0#2))
    (w := { state := utcbMaps, opened := [] }) spaces_sound.1 spaces_sound.2 (by decide) tinyRoot_info 0x10000#64
    0x7ffffffff000#64 started succeeds
  have mapped := exact_ 0x11234#64 (show _ < _ by decide)
  rw [if_neg (tinyRoot_apart _ (by decide)), at_] at mapped
  obtain ⟨low, high⟩ := visible 0x11234#64 _ 0x402234#64 at_
  exact ⟨mapped, lowest, highest, low, high, encloses⟩

end Nova.Kernel.RootImage
