/-
# Nova.Kernel.Factory — the functions that create kernel objects

`Pd::create_*` of `src/pd.cpp` with the factories that they call: `Pd::create`,
`Ec::create`, `Space_*::create` and so on, with the constructors, as far as they take
memory from Buddy or a slab cache, write page tables or the fields of PDs and spaces.

The page tables are those of `Nova.Kernel.Pagetable`, the slab caches those of
`Nova.Kernel.Slab`; both get their pages from the same `supply` of answers.  Objects
are known by their addresses.  The page-table roots in an object are kept as a table
under its address, which no table has: objects are not page-aligned.

What is written into a new page (UTCB, bitmaps, VMCS) and the identifiers that are
counted up (`Pcid`, `Sdid`, `Vpid`) are left out.  A call runs alone: no other CPU
walks the page tables meanwhile.  `none` is a kernel that stops, at an assertion or at
a read through `~0UL`.
-/
import Nova.Kernel.PdAttach
import Nova.Kernel.PtabShare
import Nova.Kernel.SlabCapability
import Nova.Kernel.Syscall

namespace Nova.Kernel

open Nova.Theory.Words
open Nova.Theory.Radix

set_option autoImplicit false

/-! ## Pages -/

/-- The pages of the block of order `o` at `page` -/
def blockPages (o : Nat) (page : Word) : List Word := (List.range (2 ^ o)).map fun i => page + BitVec.ofNat 64 (i * 2 ^ pageBits)

namespace State

/-- A block that `Buddy::alloc (o)` may return: aligned to its size and not in use -/
def UsableBlock (o : Nat) (s : State) (page : Word) : Prop :=
  page ≠ 0#64 ∧ Within (pageBits + o) 48 page ∧ ∀ p ∈ blockPages o page, p ∉ s.live

theorem usableBlock_iff (o : Nat) (s : State) (page : Word) :
    (page ≠ 0#64 ∧ Within (pageBits + o) 48 page ∧ ((blockPages o page).all fun p => !s.live.contains p) = true) ↔
      s.UsableBlock o page := by
  simp [UsableBlock]

instance (o : Nat) (s : State) (page : Word) : Decidable (s.UsableBlock o page) :=
  decidable_of_iff _ (usableBlock_iff o s page)

/-- `Buddy::alloc (o)` -/
def allocBlock (o : Nat) (s : State) : Option Word × State :=
  match s.supply with
  | [] => (none, s)
  | page :: supply =>
      if s.UsableBlock o page then
        (some page, { s with supply, live := blockPages o page ++ s.live, obtained := blockPages o page ++ s.obtained })
      else (none, { s with supply })

/-- `Buddy::free` of a block of order `o` -/
def freeBlock (o : Nat) (page : Word) (s : State) : State := (blockPages o page).foldl State.free s

end State

namespace Creation

open Syscall (SpaceKind)
open Attach (Kind)

/-! ## The state -/

/-- `NUM_CPU` -/
abbrev numCpu : Nat := 64

/-- The slab caches: those of the classes, and those of each PD -/
inductive Cache where
  | pd | ec | sc | pt | sm
  | space (k : SpaceKind) (pd : Nat)
  | fpu (pd : Nat)
  deriving DecidableEq

structure Config where
  /-- Whether `assert` does anything -/
  debug : Bool
  /-- `Hip::feature (VMX)` -/
  vmx : Bool
  /-- `Hip::feature (SVM)` -/
  svm : Bool
  /-- What the format of guest page tables depends on -/
  mbec : Bool
  /-- `Hptp::lim` -/
  lim : Nat
  /-- `sizeof (Space_obj)` and so on -/
  size : SpaceKind → Nat
  /-- `Fpu::size` -/
  fpuSize : Nat
  fits : ∀ k, SlabCache.roundedSize (size k) kobjectAlignment ≤ slabBytes - metaBytes
  fpuFits : SlabCache.roundedSize fpuSize 64 ≤ slabBytes - metaBytes
  /-- `Space_obj::nova`, `Space_hst::nova` and so on -/
  nova : SpaceKind → Nat
  /-- `Hptp::master` -/
  master : Pagetable

structure Heap where
  /-- The page tables, and the pages of Buddy -/
  mem : State
  cache : Cache → SlabCache
  /-- The PDs that are constructed; no code reads them. -/
  pds : List Nat
  /-- `spaces` of a PD -/
  spaces : Nat → BitVec 32
  /-- `space_obj`, `space_hst` and `space_pio` of a PD -/
  ptr : Nat → Kind → Option Nat
  /-- The capabilities of an object space -/
  caps : Nat → Caps
  /-- `cpus` of a host space -/
  cpus : Nat → Fin numCpu → Bool

/-- What a function returns: an object, or null with the status -/
abbrev Outcome := Option (Except Status Nat × Heap)

namespace Heap

/-- `Kobject::operator new` and `Fpu::operator new`: `Slab_cache::alloc` -/
def new (c : Cache) (s : Heap) : Option (Option Nat × Heap) :=
  let (answer, mem) := if (s.cache c).curr = none then s.mem.allocBlock 0 else (none, s.mem)
  match (s.cache c).alloc (answer.map BitVec.toNat) with
  | none => none
  | some (o, cache) => some (o, { s with mem, cache := Function.update s.cache c cache })

/-- `operator delete (o, c)` of an object that is not null: `Slab_cache::free`, which may give a slab back.  A PD is then
no longer constructed. -/
def delete (c : Cache) (o : Nat) (s : Heap) : Option Heap :=
  match (s.cache c).free o with
  | none => none
  | some cache =>
      let back := cache.returned.take (cache.returned.length - (s.cache c).returned.length)
      some { s with
        mem := back.foldl (fun mem x => mem.free (BitVec.ofNat 64 x)) s.mem
        cache := Function.update s.cache c cache
        pds := s.pds.erase o }

/-- `new` of a class whose objects are blocks of pages -/
def newBlock (o : Nat) (s : Heap) : Option Word × Heap :=
  let (page, mem) := s.mem.allocBlock o
  (page, { s with mem })

def deleteBlock (o : Nat) (page : Word) (s : Heap) : Heap := { s with mem := s.mem.freeBlock o page }

/-- `!spaces.test_and_set (..)` -/
def attach (pd : Nat) (k : Kind) (s : Heap) : Bool × Heap :=
  (s.spaces pd &&& k.bit = 0#32, { s with spaces := Function.update s.spaces pd (s.spaces pd ||| k.bit) })

def detach (pd : Nat) (k : Kind) (s : Heap) : Heap :=
  { s with spaces := Function.update s.spaces pd (s.spaces pd &&& ~~~ k.bit) }

/-- `space_obj = o` and so on -/
def publish (pd : Nat) (k : Kind) (o : Nat) (s : Heap) : Heap :=
  { s with ptr := Function.update s.ptr pd (Function.update (s.ptr pd) k (some o)) }

end Heap

/-! ## Page tables -/

def spaceOf : MemKind → SpaceKind
  | .hst => .hst
  | .gst => .gst
  | .dma => .dma

def linkAddr : Word := 0xffffffff80000000

def mmapCpu : Word := 0xffffffffb0000000

/-- `MMAP_SPC`, which is also `MMAP_SPC_PIO` -/
def mmapSpc : Word := 0xffffffffc0000000

/-- `MEM_WB` -/
def memWb : Cacheability := 0#3

/-- All values of `Memattr::Shareability` on x86 -/
def shNone : Shareability := 0#2

namespace Config

variable (cfg : Config)

/-- The page table whose root is the `i`-th in the space at `o` -/
def ptab (k : MemKind) (o : Nat) (i : Fin entries) : Pagetable :=
  { format := ((Arch.x86 cfg.mbec).fmt k).format, root := (BitVec.ofNat 64 o, i) }

/-- `hptp` of a host space -/
def hptp (o : Nat) : Pagetable := cfg.ptab .hst o 0

/-- `loc[cpu]` of a host space -/
def loc (o : Nat) (cpu : Fin numCpu) : Pagetable :=
  cfg.ptab .hst o ⟨cpu + 1, lt_of_le_of_lt (Nat.succ_le_of_lt cpu.isLt) (by decide)⟩

/-- The constructors of the page tables in a space: empty roots -/
def clearRoots (o : Nat) (s : Heap) : Heap :=
  { s with mem := { s.mem with mem := Function.update s.mem.mem (BitVec.ofNat 64 o) fun _ => 0#64 } }

/-- `share_from_master (v, e)`; `v += BITN (l * bpl + PAGE_BITS)` -/
def shareFromMaster (T : Pagetable) (v e : Word) (mem : State) : Option State :=
  let l := ((linkAddr ^^^ mmapCpu).toNat.log2 - pageBits) / bpl
  let count := (e.toNat - v.toNat + (2 ^ (l * bpl + pageBits) - 1)) / 2 ^ (l * bpl + pageBits)
  (List.range count).foldlM
    (fun mem i => (T.shareFrom cfg.master (v + BitVec.ofNat 64 (i * 2 ^ (l * bpl + pageBits))) mmapCpu mem).map Prod.snd) mem

/-- `Space_hst::init` -/
def init (hst : Nat) (cpu : Fin numCpu) (s : Heap) : Option Heap :=
  if s.cpus hst cpu then some s
  else
    let s := { s with cpus := Function.update s.cpus hst (Function.update (s.cpus hst) cpu true) }
    match (cfg.loc hst cpu).shareFrom (cfg.loc (cfg.nova .hst) cpu) mmapCpu mmapSpc s.mem with
    | none => none
    | some (_, mem) => (cfg.shareFromMaster (cfg.loc hst cpu) linkAddr mmapCpu mem).map fun mem => { s with mem }

/-- `get_ptab` -/
def getPtab (hst : Nat) (cpu : Fin numCpu) (s : Heap) : Bool × Heap :=
  match (cfg.loc hst cpu).rootInit s.mem with
  | (.null, mem) => (false, { s with mem })
  | (_, mem) => (true, { s with mem })

/-- `assert (hst->get_ptab (c))`; without `DEBUG` the condition is not evaluated. -/
def assertPtab (hst : Nat) (cpu : Fin numCpu) (s : Heap) : Option Heap :=
  if cfg.debug then
    match cfg.getPtab hst cpu s with
    | (false, _) => none
    | (true, s) => some s
  else some s

/-- `hst->update (v, p, ord, pm, MEM_WB, ..)`, whose status is not used -/
def map (hst : Nat) (v p : Word) (ord : Nat) (pm : Permissions) (s : Heap) : Heap :=
  { s with mem := ((cfg.hptp hst).update cfg.lim v p ord pm memWb shNone s.mem).2 }

/-! ## Factories -/

/-- A factory that has nothing to do but the constructor `construct` -/
def plain (c : Cache) (construct : Nat → Heap → Heap) (s : Heap) : Outcome :=
  match s.new c with
  | none => none
  | some (none, s) => some (.error .insMem, s)
  | some (some o, s) => some (.ok o, construct o s)

/-- The constructor `Pd::Pd` -/
def constructPd (o : Nat) (s : Heap) : Heap :=
  { s with
    pds := o :: s.pds
    spaces := Function.update s.spaces o 0#32
    ptr := Function.update s.ptr o fun _ => none
    cache := fun c =>
      match c with
      | .space k pd =>
          if pd = o then SlabCache.create o (cfg.size k) kobjectAlignment (s.cache c).slab else s.cache c
      | .fpu pd => if pd = o then SlabCache.create o cfg.fpuSize 64 (s.cache c).slab else s.cache c
      | _ => s.cache c }

/-- `Pd::create` -/
def newPd (s : Heap) : Outcome := plain .pd cfg.constructPd s

/-- `Sc::create` -/
def newSc (s : Heap) : Outcome := plain .sc (fun _ s => s) s

/-- `Pt::create` -/
def newPt (s : Heap) : Outcome := plain .pt (fun _ s => s) s

/-- `Sm::create` -/
def newSm (s : Heap) : Outcome := plain .sm (fun _ s => s) s

/-- `Space_obj::create` -/
def newObj (pd : Nat) (s : Heap) : Outcome :=
  plain (.space .obj pd) (fun o s => { s with caps := Function.update s.caps o Caps.empty }) s

/-- `Space_hst::create`, `Space_gst::create`, `Space_dma::create`: a space with a root table -/
def newMem (k : MemKind) (construct : Nat → Heap → Heap) (pd : Nat) (s : Heap) : Outcome :=
  match s.new (.space (spaceOf k) pd) with
  | none => none
  | some (none, s) => some (.error .insMem, s)
  | some (some o, s) =>
      let s := clearRoots o (construct o s)
      match (cfg.ptab k o 0).rootInit s.mem with
      | (.null, mem) => ({ s with mem }.delete (.space (spaceOf k) pd) o).map fun s => (.error .insMem, s)
      | (_, mem) => some (.ok o, { s with mem })

def newHst (pd : Nat) (s : Heap) : Outcome :=
  cfg.newMem .hst (fun o s => { s with cpus := Function.update s.cpus o fun _ => false }) pd s

def newGst (pd : Nat) (s : Heap) : Outcome := cfg.newMem .gst (fun _ s => s) pd s

def newDma (pd : Nat) (s : Heap) : Outcome := cfg.newMem .dma (fun _ s => s) pd s

/-- A space with a bitmap of 2^`order` pages, which its constructor may map -/
def newBitmap (k : SpaceKind) (order : Nat) (construct : Word → Heap → Heap) (pd : Nat) (s : Heap) : Outcome :=
  match s.newBlock order with
  | (none, s) => some (.error .insMem, s)
  | (some bmp, s) =>
      match s.new (.space k pd) with
      | none => none
      | some (some o, s) => some (.ok o, construct bmp s)
      | some (none, s) => some (.error .insMem, s.deleteBlock order bmp)

/-- `Space_pio::create` -/
def newPio (pd : Nat) (a : Bool) (s : Heap) : Outcome :=
  match s.ptr pd .hst with
  | none => some (.error .aborted, s)
  | some hst => newBitmap .pio 1 (fun bmp s => if a then cfg.map hst mmapSpc bmp 1 { r := true } s else s) pd s

/-- `Space_msr::create` -/
def newMsr (pd : Nat) (s : Heap) : Outcome := newBitmap .msr 0 (fun _ s => s) pd s

/-- `new` of a UTCB, VMCS or VMCB and, if there is one and the FPU area (`ready`), of the Ec; `delete` of the page if
there is no Ec -/
def attempt (ready : Bool) (construct : Word → Heap → Option Heap) (s : Heap) : Option (Option Nat × Heap) :=
  match s.newBlock 0 with
  | (none, s) => some (none, s)
  | (some page, s) =>
      if ready then
        match s.new .ec with
        | none => none
        | some (some ec, s) => (construct page s).map fun s => (some ec, s)
        | some (none, s) => some (none, s.deleteBlock 0 page)
      else some (none, s.deleteBlock 0 page)

/-- `fpu ? new (pd->fpu_cache) Fpu : nullptr` -/
def newFpu (pd : Nat) (fpu : Bool) (s : Heap) : Option (Option Nat × Heap) := if fpu then s.new (.fpu pd) else some (none, s)

/-- The way out of `Ec::create`: `Fpu::operator delete (f, pd->fpu_cache)` -/
def giveUp (pd : Nat) (f : Option Nat) (s : Heap) : Outcome :=
  match f with
  | none => some (.error .insMem, s)
  | some f => (s.delete (.fpu pd) f).map fun s => (.error .insMem, s)

/-- The constructor of a user thread: its page table on the CPU, and the UTCB -/
def constructThread (hst : Nat) (cpu : Fin numCpu) (a utcb : Word) (s : Heap) : Option Heap :=
  match cfg.init hst cpu s with
  | none => none
  | some s =>
      match cfg.assertPtab hst cpu s with
      | none => none
      | some s => some (cfg.map hst a utcb 0 { k := true, u := true, w := true, r := true } s)

/-- The constructor of a virtual CPU (VMX), which needs the page table for the `CR3` of the host -/
def constructVmx (hst : Nat) (cpu : Fin numCpu) (s : Heap) : Option Heap :=
  match cfg.init hst cpu s with
  | none => none
  | some s => (cfg.assertPtab hst cpu s).map fun s => (cfg.getPtab hst cpu s).2

/-- `Ec::create`, user thread -/
def newThread (pd : Nat) (fpu : Bool) (cpu : Fin numCpu) (a : Word) (s : Heap) : Outcome :=
  match s.ptr pd .obj, s.ptr pd .hst, s.ptr pd .pio with
  | some _, some hst, some _ =>
      match newFpu pd fpu s with
      | none => none
      | some (f, s) =>
          match attempt (!fpu || f.isSome) (cfg.constructThread hst cpu a) s with
          | none => none
          | some (some ec, s) => some (.ok ec, s)
          | some (none, s) => giveUp pd f s
  | _, _, _ => some (.error .aborted, s)

/-- `Ec::create`, virtual CPU -/
def newVcpu (pd : Nat) (fpu : Bool) (cpu : Fin numCpu) (s : Heap) : Outcome :=
  if !cfg.vmx && !cfg.svm then some (.error .badFtr, s)
  else
    match s.ptr pd .obj, s.ptr pd .hst with
    | some _, some hst =>
        match newFpu pd fpu s with
        | none => none
        | some (f, s) =>
            match if cfg.vmx then attempt (!fpu || f.isSome) (fun _ => cfg.constructVmx hst cpu) s else some (none, s) with
            | none => none
            | some (some ec, s) => some (.ok ec, s)
            | some (none, s) =>
                -- the constructor for SVM does not touch the host space
                match if cfg.svm then attempt (!fpu || f.isSome) (fun _ => some) s else some (none, s) with
                | none => none
                | some (some ec, s) => some (.ok ec, s)
                | some (none, s) => giveUp pd f s
    | _, _ => some (.error .aborted, s)

end Config

/-! ## The functions of the PD -/

/-- Where the capability goes: an object space, and whether Buddy has memory for its tables -/
structure Target where
  obj : Nat
  sel : Word
  memory : Bool

/-- The common end of `Pd::create_*`: the capability is inserted, or `destroy` frees the object. -/
def settle (t : Target) (prm : Perm) (c : Cache) : Outcome → Outcome
  | none => none
  | some (.error e, s) => some (.error e, s)
  | some (.ok o, s) =>
      let (r, caps) := (s.caps t.obj).insert t.sel (.ofObject (BitVec.ofNat 64 o) prm) t.memory
      let s := { s with caps := Function.update s.caps t.obj caps }
      if r = .success then some (.ok o, s) else (s.delete c o).map fun s => (.error r, s)

/-- A space that a PD has once: `create` is called with its bit, and the pointer is published. -/
def once (k : Kind) (pd : Nat) (create : Heap → Outcome) (s : Heap) : Outcome :=
  match s.attach pd k with
  | (false, s) => some (.error .aborted, s)
  | (true, s) =>
      match create s with
      | none => none
      | some (.ok o, s) => some (.ok o, s.publish pd k o)
      | some (.error e, s) => some (.error e, s.detach pd k)

namespace Config

variable (cfg : Config)

def createObj (pd : Nat) (t : Target) (s : Heap) : Outcome :=
  once .obj pd (fun s => settle t Perm.definedObj (.space .obj pd) (newObj pd s)) s

def createHst (pd : Nat) (t : Target) (s : Heap) : Outcome :=
  once .hst pd (fun s => settle t Perm.definedHst (.space .hst pd) (cfg.newHst pd s)) s

def createGst (pd : Nat) (t : Target) (s : Heap) : Outcome :=
  settle t Perm.definedGst (.space .gst pd) (cfg.newGst pd s)

def createDma (pd : Nat) (t : Target) (s : Heap) : Outcome :=
  settle t Perm.definedDma (.space .dma pd) (cfg.newDma pd s)

/-- `create_pio` goes on without the bit, and then does not publish. -/
def createPio (pd : Nat) (t : Target) (s : Heap) : Outcome :=
  let (a, s) := s.attach pd .pio
  match settle t Perm.definedPio (.space .pio pd) (cfg.newPio pd a s) with
  | none => none
  | some (.ok o, s) => some (.ok o, if a then s.publish pd .pio o else s)
  | some (.error e, s) => some (.error e, if a then s.detach pd .pio else s)

def createMsr (pd : Nat) (t : Target) (s : Heap) : Outcome :=
  settle t Perm.definedMsr (.space .msr pd) (newMsr pd s)

def createPd (prm : Perm) (t : Target) (s : Heap) : Outcome := settle t prm .pd (cfg.newPd s)

def createEc (pd : Nat) (flg : BitVec 8) (cpu : Fin numCpu) (utcb : Word) (t : Target) (s : Heap) : Outcome :=
  settle t Perm.definedEc .ec
    (if flg.getLsbD 1 then cfg.newVcpu pd (flg.getLsbD 2) cpu s else cfg.newThread pd (flg.getLsbD 2) cpu utcb s)

end Config

def createSc (t : Target) (s : Heap) : Outcome := settle t Perm.definedSc .sc (Config.newSc s)

def createPt (t : Target) (s : Heap) : Outcome := settle t Perm.definedPt .pt (Config.newPt s)

def createSm (id : BitVec 32) (t : Target) (s : Heap) : Outcome :=
  settle t (if id = Syscall.noId then Perm.definedSm else Perm.definedInt) .sm (Config.newSm s)

/-- A call of one of the functions -/
inductive Call where
  | pd (prm : Perm)
  | obj (pd : Nat)
  | hst (pd : Nat)
  | gst (pd : Nat)
  | dma (pd : Nat)
  | pio (pd : Nat)
  | msr (pd : Nat)
  | ec (pd : Nat) (flg : BitVec 8) (cpu : Fin numCpu) (utcb : Word)
  | sc
  | pt
  | sm (id : BitVec 32)

def Config.create (cfg : Config) (t : Target) (s : Heap) : Call → Outcome
  | .pd prm => cfg.createPd prm t s
  | .obj pd => createObj pd t s
  | .hst pd => cfg.createHst pd t s
  | .gst pd => cfg.createGst pd t s
  | .dma pd => cfg.createDma pd t s
  | .pio pd => cfg.createPio pd t s
  | .msr pd => createMsr pd t s
  | .ec pd flg cpu utcb => cfg.createEc pd flg cpu utcb t s
  | .sc => createSc t s
  | .pt => createPt t s
  | .sm id => createSm id t s

end Creation

end Nova.Kernel
