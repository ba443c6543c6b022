/-
# Nova.Kernel.Dma — devices, DMA spaces and the caches of the SMMUs

`sys_assign_dev` gives a device to a DMA space: `Smmu::configure` finds or allocates the
context table of the bus, clears the entry of the device, invalidates the caches of one
SMMU and writes the new entry, each entry as two words.  The tables belong to all SMMUs.
An SMMU may at any time cache a context entry, and a translation under the 8-bit `Sdid` of
a DMA space, or drop one.  `Space_dma::update` changes a translation at any time;
`Space_dma::sync` invalidates nothing.

`configure` does not notice that `new Smmu_ctx` fails (`Event.null`), and the page table that it
gives to the SMMU is the root table of the space only if the widest address width of the SMMU is
that of 48 bits (`Config.ptab`).  What a device gets to otherwise is not bounded here; `Backed`
excludes both.

Steps are single accesses to a table, so that calls for different SMMUs interleave.
Callers serialise the calls for one SMMU (it has one invalidation queue) and name the SMMU
that the device is behind (`Serial`).  With both conditions (`Orderly`)

* `dma_confined`: what a device can reach at an address is what a DMA space with the `Sdid`
  of its own one has had there since the last invalidation of the SMMU; if no `Sdid` was
  given twice, it is what its own space had;
* `assignment_lasts`: if calls for one bus are serialised, too, then an assignment lasts
  until the next call for the device, and the device reaches what its space maps.

Without that condition an assignment can be lost (`assignment_lost`); that a device keeps
what its space gave up shows `dma_confined_revoked`.
-/
import Mathlib.Data.List.Basic
import Nova.Theory.Runs

namespace Nova.Kernel.Dma

set_option autoImplicit false
set_option linter.unusedSectionVars false

open Nova.Theory.Runs

/-- Bus, and device and function -/
abbrev Dev := BitVec 8 × BitVec 8

/-- `bus` and `dfn` of a device address -/
def device (dad : BitVec 64) : Dev := ((dad >>> 8).setWidth 8, dad.setWidth 8)

/-- Where an SMMU starts to walk: at the root table of a DMA space, or anywhere else -/
inductive Ptab where
  | space (s : Nat)
  | wild
deriving DecidableEq, Repr

/-- `Smmu_ctx`: the second word is zero, or present with the address of a page table. -/
structure Entry where
  hi : Nat := 0
  lo : Option Ptab := none
deriving DecidableEq, Repr

def Entry.present (e : Entry) : Bool := e.lo.isSome

/-- `Sdid` of the DMA space with this number -/
def sdid (s : Nat) : Nat := s % 2 ^ 8

/-- The first word of a context entry -/
def ctxHi (lev s : Nat) : Nat := lev ||| sdid s <<< 8

/-- Address width and domain, as the SMMU reads them -/
def aw (hi : Nat) : Nat := hi % 2 ^ 3

def did (hi : Nat) : Nat := hi / 2 ^ 8 % 2 ^ 16

/-- The SMMUs: the field of `cap` with the address widths that each accepts (number 0 is reserved), and the
one that each device is behind -/
structure Config (u : Nat) where
  sagaw : Fin u → BitVec 5
  home : Dev → Fin u
  width : ∀ x, sagaw x ≠ 0
  reserved : ∀ x, (sagaw x).toNat.testBit 0 = false

/-- `bit_scan_reverse (cap >> 8 & BIT_RANGE (4, 0))` -/
def Config.lev {u : Nat} (cfg : Config u) (x : Fin u) : Nat := (cfg.sagaw x).toNat.log2

def Config.accepts {u : Nat} (cfg : Config u) (x : Fin u) (w : Nat) : Bool := (cfg.sagaw x).toNat.testBit w

/-- The arguments of `configure` -/
structure Args (u : Nat) where
  unit : Fin u
  space : Nat
  dev : Dev
deriving DecidableEq

/-- `dma->get_ptab (lev + 1)`.  With 48 bits (`lev` is 2) it is the root table of the space.  With 39 bits it is the
first table of a lower level, which `update` may free; with 57 bits it is the slot of the root table, which is no
table. -/
def Config.ptab {u : Nat} (cfg : Config u) (a : Args u) : Ptab := if cfg.lev a.unit = 2 then .space a.space else .wild

inductive Pc (u : Nat) where
  | out
  /-- `r->present()` -/
  | root (a : Args u)
  /-- `r->set (0, …)` for the new table `t` -/
  | rootSet (a : Args u) (t : Nat)
  /-- `r->addr()` -/
  | addr (a : Args u)
  /-- `c->present()` -/
  | entry (a : Args u) (t : Nat)
  /-- `c->set (0, 0)`: the two words -/
  | clearHi (a : Args u) (t : Nat)
  | clearLo (a : Args u) (t : Nat)
  /-- `invalidate_ctx()` -/
  | flush (a : Args u) (t : Nat)
  /-- `c->set (lev | sdid << 8, …)`: the two words -/
  | setHi (a : Args u) (t : Nat)
  | setLo (a : Args u) (t : Nat)
deriving DecidableEq

/-- The caches of an SMMU; `seen`: what a space has had mapped since they were invalidated. -/
structure Smmu (P F : Type) where
  ctx : Dev → Option (Nat × Ptab) := fun _ => none
  tlb : Nat → P → Option F := fun _ _ => none
  seen : Nat → P → List F := fun _ _ => []

structure State (k u : Nat) (P F : Type) where
  pc : Fin k → Pc u
  /-- the root table, the context tables and how many there are, and the bus of each -/
  root : BitVec 8 → Option Nat
  table : Nat → BitVec 8 → Entry
  tables : Nat
  bus : Nat → BitVec 8
  /-- memory that was never allocated as a context table -/
  wild : Nat → Bool
  unit : Fin u → Smmu P F
  /-- the DMA spaces, and what they map -/
  spaces : Nat
  map : Nat → P → Option F
  /-- the space that a device was last given, while the assignment is in force -/
  assigned : Dev → Option Nat

inductive Event (k u : Nat) (P F : Type) where
  /-- `Space_dma::create` -/
  | create
  /-- `Space_dma::update`: one entry of the page table of `s` changes -/
  | update (s : Nat) (new : P → Option F)
  | configure (c : Fin k) (a : Args u)
  | go (c : Fin k)
  /-- `new Smmu_ctx` fails, which `configure` does not notice: it sets the root entry all the same. -/
  | null (c : Fin k)
  /-- Memory changes that is not a context table. -/
  | scribble (t : Nat) (dfn : BitVec 8) (e : Entry)
  /-- The SMMU of the device caches its context entry. -/
  | fetch (dev : Dev)
  | dropCtx (x : Fin u) (dev : Dev)
  /-- The SMMU of the device caches a translation, with the cached context entry or the one in memory; `junk` is
  what it finds where there is no page table. -/
  | fill (dev : Dev) (cached : Bool) (p : P) (junk : F)
  | dropTlb (x : Fin u) (d : Nat) (p : P)

variable {k u : Nat} {P F : Type} [DecidableEq P]

namespace State

abbrev goto (m : State k u P F) (c : Fin k) (pc : Pc u) : State k u P F :=
  { m with pc := fun x => if x = c then pc else m.pc x }

abbrev setUnit (m : State k u P F) (x : Fin u) (f : Smmu P F → Smmu P F) : State k u P F :=
  { m with unit := fun y => if y = x then f (m.unit y) else m.unit y }

abbrev setEntry (m : State k u P F) (t : Nat) (dfn : BitVec 8) (f : Entry → Entry) : State k u P F :=
  { m with table := fun t' d => if t' = t ∧ d = dfn then f (m.table t' d) else m.table t' d }

abbrev setRoot (m : State k u P F) (b : BitVec 8) (t : Nat) : State k u P F :=
  { m with root := fun x => if x = b then some t else m.root x }

abbrev assign (m : State k u P F) (dev : Dev) (s : Option Nat) : State k u P F :=
  { m with assigned := fun x => if x = dev then s else m.assigned x }

/-- `new Smmu_ctx` -/
abbrev newTable (m : State k u P F) (b : BitVec 8) : State k u P F :=
  { m with tables := m.tables + 1, bus := fun t => if t = m.tables then b else m.bus t }

abbrev nullTable (m : State k u P F) (b : BitVec 8) : State k u P F :=
  { m.newTable b with wild := fun t => if t = m.tables then true else m.wild t }

abbrev create (m : State k u P F) : State k u P F := { m with spaces := m.spaces + 1 }

/-- One entry of the page table of `s` changes. -/
abbrev updateMap (m : State k u P F) (s : Nat) (new : P → Option F) : State k u P F :=
  { m with
    map := fun x => if x = s then new else m.map x
    unit := fun x => { m.unit x with
      seen := fun y p => if y = s then (new p).toList ++ (m.unit x).seen y p else (m.unit x).seen y p } }

/-- `invalidate_ctx`: global, for context entries and translations -/
abbrev invalidate (m : State k u P F) (x : Fin u) : State k u P F :=
  m.setUnit x fun _ => { seen := fun s p => (m.map s p).toList }

abbrev setCtx (m : State k u P F) (x : Fin u) (dev : Dev) (e : Option (Nat × Ptab)) : State k u P F :=
  m.setUnit x fun x => { x with ctx := fun d => if d = dev then e else x.ctx d }

abbrev setTlb (m : State k u P F) (x : Fin u) (d : Nat) (p : P) (f : Option F) : State k u P F :=
  m.setUnit x fun x => { x with tlb := fun d' q => if d' = d ∧ q = p then f else x.tlb d' q }

/-- The context entry of the device in memory, if its SMMU accepts it -/
def usable (cfg : Config u) (m : State k u P F) (dev : Dev) : Option (Nat × Ptab) :=
  (m.root dev.1).bind fun t => (m.table t dev.2).lo.bind fun q =>
    if cfg.accepts (cfg.home dev) (aw (m.table t dev.2).hi) then some ((m.table t dev.2).hi, q) else none

/-- What an SMMU finds at an address -/
def walk (m : State k u P F) (junk : F) : Ptab → P → Option F
  | .space s, p => m.map s p
  | .wild, _ => some junk

/-- `Smmu::configure`, up to the next access to a table that others see -/
def go (cfg : Config u) (c : Fin k) (m : State k u P F) : Option (State k u P F) :=
  match m.pc c with
  | .out => none
  | .root a =>
      if (m.root a.dev.1).isSome then some (m.goto c (.addr a))
      else some ((m.newTable a.dev.1).goto c (.rootSet a m.tables))
  | .rootSet a t => some ((m.setRoot a.dev.1 t).goto c (.addr a))
  | .addr a => (m.root a.dev.1).map fun t => m.goto c (.entry a t)
  | .entry a t => some (m.goto c (if (m.table t a.dev.2).present then .clearHi a t else .flush a t))
  | .clearHi a t => some ((m.setEntry t a.dev.2 fun e => { e with hi := 0 }).goto c (.clearLo a t))
  | .clearLo a t => some ((m.setEntry t a.dev.2 fun e => { e with lo := none }).goto c (.flush a t))
  | .flush a t => some (((m.invalidate a.unit).assign a.dev none).goto c (.setHi a t))
  | .setHi a t => some ((m.setEntry t a.dev.2 fun e => { e with hi := ctxHi (cfg.lev a.unit) a.space }).goto c (.setLo a t))
  | .setLo a t =>
      some (((m.setEntry t a.dev.2 fun e => { e with lo := some (cfg.ptab a) }).assign a.dev (some a.space)).goto c .out)

/-- `new Smmu_ctx` fails. -/
def null (c : Fin k) (m : State k u P F) : Option (State k u P F) :=
  match m.pc c with
  | .root a => if (m.root a.dev.1).isSome then none else some ((m.nullTable a.dev.1).goto c (.rootSet a m.tables))
  | _ => none

/-- The context that the SMMU of the device uses: the cached one, or the one in memory -/
def context (cfg : Config u) (m : State k u P F) (dev : Dev) (cached : Bool) : Option (Nat × Ptab) :=
  if cached then (m.unit (cfg.home dev)).ctx dev else m.usable cfg dev

end State

/-- A step -/
def step (cfg : Config u) : Event k u P F → State k u P F → Option (State k u P F)
  | .create, m => some m.create
  | .update s new, m => if s < m.spaces then some (m.updateMap s new) else none
  | .configure c a, m => if m.pc c = .out ∧ a.space < m.spaces then some (m.goto c (.root a)) else none
  | .go c, m => m.go cfg c
  | .null c, m => m.null c
  | .scribble t dfn e, m => if m.wild t then some (m.setEntry t dfn fun _ => e) else none
  | .fetch dev, m =>
      (m.usable cfg dev).map fun e => m.setCtx (cfg.home dev) dev (some e)
  | .dropCtx x dev, m => some (m.setCtx x dev none)
  | .fill dev cached p junk, m =>
      (m.context cfg dev cached).bind fun e => (m.walk junk e.2 p).map fun f =>
        m.setTlb (cfg.home dev) (did e.1) p (some f)
  | .dropTlb x d p, m => some (m.setTlb x d p none)

/-- No DMA space yet, and no context table -/
def start (k u : Nat) (P F : Type) : State k u P F where
  pc := fun _ => .out
  root := fun _ => none
  table := fun _ _ => {}
  tables := 0
  bus := fun _ => 0
  wild := fun _ => false
  unit := fun _ => {}
  spaces := 0
  map := fun _ _ => none
  assigned := fun _ => none

/-- The device gets to `f` at `p`: through a cached translation, or by walking the page table. -/
def State.Reaches (cfg : Config u) (m : State k u P F) (dev : Dev) (p : P) (f : F) : Prop :=
  ∃ cached hi q, m.context cfg dev cached = some (hi, q) ∧
    ((m.unit (cfg.home dev)).tlb (did hi) p = some f ∨ ∃ junk, m.walk junk q p = some f)

def Pc.args : Pc u → Option (Args u)
  | .out => none
  | .root a | .rootSet a _ | .addr a | .entry a _ | .clearHi a _ | .clearLo a _ | .flush a _ | .setHi a _ | .setLo a _ => some a

/-- What `configure` relies on: the widest address width of the SMMU is 48 bits, and there is memory for the context
table. -/
def Backed (cfg : Config u) : Event k u P F → Prop
  | .configure _ a => cfg.lev a.unit = 2
  | .null _ => False
  | _ => True

/-- What callers of `configure` see to: the SMMU is the one of the device, and nobody else configures it. -/
def Serial (cfg : Config u) (m : State k u P F) : Event k u P F → Prop
  | .configure _ a => cfg.home a.dev = a.unit ∧ ∀ c, ∀ a' ∈ (m.pc c).args, a'.unit ≠ a.unit
  | _ => True

/-- In addition nobody else configures a device of the bus. -/
def BusSerial (m : State k u P F) : Event k u P F → Prop
  | .configure _ a => ∀ c, ∀ a' ∈ (m.pc c).args, a'.dev.1 ≠ a.dev.1
  | _ => True

instance Serial.decidable (cfg : Config u) (m : State k u P F) : ∀ e, Decidable (Serial cfg m e)
  | .configure _ _ => inferInstanceAs (Decidable (_ ∧ _))
  | .create | .update _ _ | .go _ | .null _ | .scribble _ _ _ | .fetch _ | .dropCtx _ _ | .fill _ _ _ _ | .dropTlb _ _ _ =>
      inferInstanceAs (Decidable True)

instance Backed.decidable (cfg : Config u) : ∀ e : Event k u P F, Decidable (Backed cfg e)
  | .configure _ _ => inferInstanceAs (Decidable (_ = _))
  | .null _ => inferInstanceAs (Decidable False)
  | .create | .update _ _ | .go _ | .scribble _ _ _ | .fetch _ | .dropCtx _ _ | .fill _ _ _ _ | .dropTlb _ _ _ =>
      inferInstanceAs (Decidable True)

instance BusSerial.decidable (m : State k u P F) : ∀ e, Decidable (BusSerial m e)
  | .configure _ a => inferInstanceAs (Decidable (∀ c, ∀ a' ∈ (m.pc c).args, a'.dev.1 ≠ a.dev.1))
  | .create | .update _ _ | .go _ | .null _ | .scribble _ _ _ | .fetch _ | .dropCtx _ _ | .fill _ _ _ _ | .dropTlb _ _ _ =>
      inferInstanceAs (Decidable True)

/-- The conditions on a step -/
def Orderly (cfg : Config u) (m : State k u P F) (e : Event k u P F) : Prop := Serial cfg m e ∧ Backed cfg e

instance Orderly.decidable (cfg : Config u) (m : State k u P F) (e) : Decidable (Orderly cfg m e) :=
  inferInstanceAs (Decidable (_ ∧ _))

/-! ## What a step does -/

variable {cfg : Config u} {m m' : State k u P F} {e : Event k u P F} {c : Fin k} {x : Fin u} {dev : Dev} {s t : Nat} {p : P} {f : F}

/-- Nothing is wild. -/
structure State.Tame (cfg : Config u) (m : State k u P F) : Prop where
  wild : ∀ t, m.wild t = false
  lev : ∀ c a, (m.pc c).args = some a → cfg.lev a.unit = 2
  table : ∀ t d, (m.table t d).lo ≠ some .wild
  ctx : ∀ x dev hi, (m.unit x).ctx dev ≠ some (hi, .wild)

/-- The steps where nothing is wild, by the place of the CPU and what it meets there -/
inductive Move (cfg : Config u) (m : State k u P F) : Event k u P F → State k u P F → Prop where
  | create : Move cfg m .create m.create
  | update {s : Nat} {new : P → Option F} (space : s < m.spaces) : Move cfg m (.update s new) (m.updateMap s new)
  | configure {c : Fin k} {a : Args u} (pc : m.pc c = .out) (space : a.space < m.spaces) :
      Move cfg m (.configure c a) (m.goto c (.root a))
  | found {c : Fin k} {a : Args u} (pc : m.pc c = .root a) (root : (m.root a.dev.1).isSome = true) :
      Move cfg m (.go c) (m.goto c (.addr a))
  | alloc {c : Fin k} {a : Args u} (pc : m.pc c = .root a) (root : m.root a.dev.1 = none) :
      Move cfg m (.go c) ((m.newTable a.dev.1).goto c (.rootSet a m.tables))
  | rootSet {c : Fin k} {a : Args u} {t : Nat} (pc : m.pc c = .rootSet a t) :
      Move cfg m (.go c) ((m.setRoot a.dev.1 t).goto c (.addr a))
  | addr {c : Fin k} {a : Args u} {t : Nat} (pc : m.pc c = .addr a) (root : m.root a.dev.1 = some t) :
      Move cfg m (.go c) (m.goto c (.entry a t))
  | present {c : Fin k} {a : Args u} {t : Nat} (pc : m.pc c = .entry a t)
      (some : (m.table t a.dev.2).lo.isSome = true) : Move cfg m (.go c) (m.goto c (.clearHi a t))
  | absent {c : Fin k} {a : Args u} {t : Nat} (pc : m.pc c = .entry a t)
      (none : (m.table t a.dev.2).lo = none) : Move cfg m (.go c) (m.goto c (.flush a t))
  | clearHi {c : Fin k} {a : Args u} {t : Nat} (pc : m.pc c = .clearHi a t) :
      Move cfg m (.go c) ((m.setEntry t a.dev.2 fun e => { e with hi := 0 }).goto c (.clearLo a t))
  | clearLo {c : Fin k} {a : Args u} {t : Nat} (pc : m.pc c = .clearLo a t) :
      Move cfg m (.go c) ((m.setEntry t a.dev.2 fun e => { e with lo := none }).goto c (.flush a t))
  | flush {c : Fin k} {a : Args u} {t : Nat} (pc : m.pc c = .flush a t) :
      Move cfg m (.go c) (((m.invalidate a.unit).assign a.dev none).goto c (.setHi a t))
  | setHi {c : Fin k} {a : Args u} {t : Nat} (pc : m.pc c = .setHi a t) :
      Move cfg m (.go c) ((m.setEntry t a.dev.2 fun e => { e with hi := ctxHi (cfg.lev a.unit) a.space }).goto c (.setLo a t))
  | setLo {c : Fin k} {a : Args u} {t : Nat} (pc : m.pc c = .setLo a t) :
      Move cfg m (.go c)
        (((m.setEntry t a.dev.2 fun e => { e with lo := some (.space a.space) }).assign a.dev (some a.space)).goto c .out)
  | fetch {dev : Dev} {hi s : Nat} (usable : m.usable cfg dev = some (hi, .space s)) :
      Move cfg m (.fetch dev) (m.setCtx (cfg.home dev) dev (some (hi, .space s)))
  | dropCtx {x : Fin u} {dev : Dev} : Move cfg m (.dropCtx x dev) (m.setCtx x dev none)
  | fill {dev : Dev} {cached : Bool} {p : P} {junk : F} {hi s : Nat} {f : F} (context : m.context cfg dev cached = some (hi, .space s))
      (walk : m.map s p = some f) : Move cfg m (.fill dev cached p junk) (m.setTlb (cfg.home dev) (did hi) p (some f))
  | dropTlb {x : Fin u} {d : Nat} {p : P} : Move cfg m (.dropTlb x d p) (m.setTlb x d p none)

theorem go_move (tame : m.Tame cfg) (done : m.go cfg c = some m') : Move cfg m (.go c) m' := by
  unfold State.go at done
  split at done
  · cases done
  · rename_i a pc
    split at done
    · rename_i root
      exact Option.some.inj done ▸ .found pc root
    · rename_i root
      exact Option.some.inj done ▸ .alloc pc (by simpa using root)
  · rename_i a t pc
    exact Option.some.inj done ▸ .rootSet pc
  · rename_i a pc
    obtain ⟨t, root, rfl⟩ := Option.map_eq_some_iff.mp done
    exact .addr pc root
  · rename_i a t pc
    cases lo : (m.table t a.dev.2).lo with
    | none =>
        rw [Entry.present, lo] at done
        exact Option.some.inj done ▸ .absent pc lo
    | some s =>
        rw [Entry.present, lo] at done
        exact Option.some.inj done ▸ .present pc (by rw [lo]; rfl)
  · rename_i a t pc
    exact Option.some.inj done ▸ .clearHi pc
  · rename_i a t pc
    exact Option.some.inj done ▸ .clearLo pc
  · rename_i a t pc
    exact Option.some.inj done ▸ .flush pc
  · rename_i a t pc
    exact Option.some.inj done ▸ .setHi pc
  · rename_i a t pc
    rw [Config.ptab, if_pos (tame.lev c a (by rw [pc]; rfl))] at done
    exact Option.some.inj done ▸ .setLo pc

theorem State.Tame.usable (tame : m.Tame cfg) {hi : Nat} {q : Ptab} (is : m.usable cfg dev = some (hi, q)) : ∃ s, q = .space s := by
  obtain ⟨t, -, is⟩ := Option.bind_eq_some_iff.mp is
  obtain ⟨q', lo, is⟩ := Option.bind_eq_some_iff.mp is
  split at is
  · cases is
    cases q with
    | space s => exact ⟨s, rfl⟩
    | wild => exact absurd lo (tame.table t dev.2)
  · cases is

theorem State.Tame.context (tame : m.Tame cfg) {cached : Bool} {hi : Nat} {q : Ptab}
    (is : m.context cfg dev cached = some (hi, q)) : ∃ s, q = .space s := by
  cases cached with
  | true =>
      cases q with
      | space s => exact ⟨s, rfl⟩
      | wild => exact absurd is (tame.ctx _ dev hi)
  | false => exact tame.usable is

theorem step_move (tame : m.Tame cfg) (backed : Backed cfg e) (done : step cfg e m = some m') : Move cfg m e m' := by
  cases e with
  | create => exact Option.some.inj done ▸ .create
  | update s new =>
      rw [step] at done
      split at done
      · rename_i space
        exact Option.some.inj done ▸ .update space
      · cases done
  | configure c a =>
      rw [step] at done
      split at done
      · rename_i can
        exact Option.some.inj done ▸ .configure can.1 can.2
      · cases done
  | go c => exact go_move tame done
  | null c => exact absurd backed id
  | scribble t dfn e =>
      rw [step, if_neg (by rw [tame.wild t]; exact Bool.false_ne_true)] at done
      cases done
  | fetch dev =>
      obtain ⟨⟨hi, q⟩, usable, rfl⟩ := Option.map_eq_some_iff.mp done
      obtain ⟨s, rfl⟩ := tame.usable usable
      exact .fetch usable
  | dropCtx x dev => exact Option.some.inj done ▸ .dropCtx
  | fill dev cached p junk =>
      obtain ⟨⟨hi, q⟩, context, done⟩ := Option.bind_eq_some_iff.mp done
      obtain ⟨f, walk, rfl⟩ := Option.map_eq_some_iff.mp done
      obtain ⟨s, rfl⟩ := tame.context context
      exact .fill context walk
  | dropTlb x d p => exact Option.some.inj done ▸ .dropTlb

/-! ## Context entries -/

theorem Config.accepts_zero (cfg : Config u) (x : Fin u) : cfg.accepts x (aw 0) = false := cfg.reserved x

theorem Config.lev_lt (cfg : Config u) (x : Fin u) : cfg.lev x < 2 ^ 3 := by
  have width : (cfg.sagaw x).toNat ≠ 0 := fun zero => cfg.width x (BitVec.eq_of_toNat_eq zero)
  exact Nat.lt_of_lt_of_le ((Nat.log2_lt width).mpr (cfg.sagaw x).isLt) (by decide)

theorem Config.lev_accepts (cfg : Config u) (x : Fin u) : cfg.accepts x (cfg.lev x) = true := by
  have width : (cfg.sagaw x).toNat ≠ 0 := fun zero => cfg.width x (BitVec.eq_of_toNat_eq zero)
  exact Nat.testBit_log2 width

theorem ctxHi_eq {l s : Nat} (small : l < 2 ^ 3) : ctxHi l s = sdid s * 2 ^ 8 + l := by
  rw [ctxHi, Nat.or_comm, ← Nat.shiftLeft_add_eq_or_of_lt (Nat.lt_trans small (by decide)), Nat.shiftLeft_eq]

theorem did_ctxHi {l s : Nat} (small : l < 2 ^ 3) : did (ctxHi l s) = sdid s := by
  rw [ctxHi_eq small, did, sdid]
  omega

theorem aw_ctxHi {l s : Nat} (small : l < 2 ^ 3) : aw (ctxHi l s) = l := by
  rw [ctxHi_eq small, aw, sdid]
  omega

/-! ## The calls in progress -/

/-- The table in whose entry the CPU works -/
def Pc.within : Pc u → Option Nat
  | .entry _ t | .clearHi _ t | .clearLo _ t | .flush _ t | .setHi _ t | .setLo _ t => some t
  | _ => none

namespace State

/-- A call in progress was in progress before, or starts. -/
theorem args_move {y : Fin k} {a : Args u} (move : Move cfg m e m') (args : (m'.pc y).args = some a) :
    (m.pc y).args = some a ∨ e = .configure y a := by
  cases move <;> grind -ring -linarith [Pc.args]

theorem tame_move (tame : m.Tame cfg) (backed : Backed cfg e) (move : Move cfg m e m') : m'.Tame cfg where
  wild := by
    intro t
    cases move <;> exact tame.wild t
  lev := by
    intro y a args
    rcases args_move move args with old | rfl
    · exact tame.lev y a old
    · exact backed
  table := by
    intro t d
    have table := tame.table t d
    cases move with
    | clearHi | clearLo | setHi | setLo => grind -ring -linarith
    | _ => exact table
  ctx := by
    intro x dev hi
    have ctx := tame.ctx x dev hi
    cases move with
    | flush | fetch | dropCtx | fill | dropTlb => grind -ring -linarith
    | _ => exact ctx

/-- The others are where they were, but for the start of a call. -/
theorem pc_move {y : Fin k} (move : Move cfg m e m') (other : e ≠ .go y) :
    m'.pc y = m.pc y ∨ m.pc y = .out ∧ ∃ a, m'.pc y = .root a := by
  cases move <;> grind -ring -linarith

theorem spaces_move (move : Move cfg m e m') : m.spaces ≤ m'.spaces := by
  cases move with
  | create => exact Nat.le_succ _
  | _ => exact Nat.le_refl _

theorem made_move (move : Move cfg m e m') : m.tables ≤ m'.tables := by
  cases move with
  | alloc => exact Nat.le_succ _
  | _ => exact Nat.le_refl _

/-- Only a call for the device that works in the table changes an entry. -/
theorem table_move {t : Nat} {d : BitVec 8} (move : Move cfg m e m') :
    m'.table t d = m.table t d ∨ ∃ c a, e = .go c ∧ (m.pc c).within = some t ∧ (m.pc c).args = some a ∧ a.dev.2 = d := by
  cases move with
  | clearHi | clearLo | setHi | setLo => grind -ring -linarith [Pc.within, Pc.args]
  | _ => exact Or.inl rfl

/-- A root entry only ever gets a new table. -/
theorem root_move {b : BitVec 8} (move : Move cfg m e m') :
    m'.root b = m.root b ∨
      ∃ c a t, m.pc c = .rootSet a t ∧ a.dev.1 = b ∧ m'.root b = some t ∧ m'.table = m.table := by
  cases move with
  | rootSet => grind -ring -linarith
  | _ => exact Or.inl rfl

/-- A translation gets into the TLB by a walk through the context that the SMMU has for a device. -/
theorem tlb_move {x : Fin u} {d : Nat} {p : P} {f : F} (move : Move cfg m e m') (is : (m'.unit x).tlb d p = some f) :
    (m.unit x).tlb d p = some f ∨ ∃ dev c hi s, m.context cfg dev c = some (hi, .space s) ∧ x = cfg.home dev ∧ did hi = d ∧
      m.map s p = some f := by
  cases move with
  | flush | fetch | dropCtx | fill | dropTlb => grind -ring -linarith
  | _ => exact Or.inl is

/-- Only an invalidation, which leaves no translation, makes what spaces have had there forgotten. -/
theorem seen_move {x : Fin u} (move : Move cfg m e m') :
    (∀ s p f, f ∈ (m.unit x).seen s p → f ∈ (m'.unit x).seen s p) ∨ ∀ d p, (m'.unit x).tlb d p = none := by
  cases move with
  | update | flush | fetch | dropCtx | fill | dropTlb => grind -ring -linarith
  | _ => exact Or.inl fun _ _ _ had => had

/-- The calls in progress are for different SMMUs, each the one of the device. -/
structure Calls (cfg : Config u) (m : State k u P F) : Prop where
  serial : ∀ c c' a a', (m.pc c).args = some a → (m.pc c').args = some a' → a.unit = a'.unit → c = c'
  named : ∀ c a, (m.pc c).args = some a → cfg.home a.dev = a.unit
  space : ∀ c a, (m.pc c).args = some a → a.space < m.spaces

theorem calls_move (calls : m.Calls cfg) (serial : Serial cfg m e) (move : Move cfg m e m') : m'.Calls cfg where
  serial := by
    intro y y' a a' args args' same
    rcases args_move move args with old | rfl
    · rcases args_move move args' with old' | rfl
      · exact calls.serial y y' a a' old old' same
      · exact absurd same (serial.2 y a old)
    · rcases args_move move args' with old' | starts
      · exact absurd same.symm (serial.2 y' a' old')
      · cases starts
        rfl
  named := by
    intro y a args
    rcases args_move move args with old | rfl
    · exact calls.named y a old
    · exact serial.1
  space := by
    intro y a args
    rcases args_move move args with old | rfl
    · exact Nat.lt_of_lt_of_le (calls.space y a old) (spaces_move move)
    · cases move with
      | configure _ space => exact space

/-- Two calls in one entry of a table are one. -/
theorem Calls.alone (calls : m.Calls cfg) {y y' : Fin k} {a a' : Args u} (args : (m.pc y).args = some a)
    (args' : (m.pc y').args = some a') (same : a.dev = a'.dev) : y = y' :=
  calls.serial y y' a a' args args' (by rw [← calls.named y a args, ← calls.named y' a' args', same])

/-! ## The tables -/

/-- Each table is of one bus; the ones that no root entry has yet are empty, and nobody works in them. -/
structure Tables (m : State k u P F) : Prop where
  owner : ∀ b t, m.root b = some t → m.bus t = b ∧ t < m.tables
  fresh : ∀ t d, m.tables ≤ t → m.table t d = {}
  within : ∀ c a t, (m.pc c).within = some t → (m.pc c).args = some a → m.bus t = a.dev.1
  inside : ∀ c t, (m.pc c).within = some t → t < m.tables
  made : ∀ c a t, m.pc c = .rootSet a t → m.bus t = a.dev.1 ∧ t < m.tables
  empty : ∀ c a t, m.pc c = .rootSet a t → ∀ d, m.table t d = {}
  rootless : ∀ c a t, m.pc c = .rootSet a t → ∀ b, m.root b ≠ some t
  unshared : ∀ c a t, m.pc c = .rootSet a t → ∀ c', (m.pc c').within ≠ some t
  sole : ∀ c a t c' a', m.pc c = .rootSet a t → m.pc c' = .rootSet a' t → c = c'

theorem tables_move (tables : m.Tables) (move : Move cfg m e m') : m'.Tables where
  owner := by
    have owner := tables.owner
    have made := tables.made
    cases move with
    | alloc | rootSet => grind -ring -linarith
    | _ => exact owner
  fresh := by
    intro t d new
    have old : m.tables ≤ t := Nat.le_trans (made_move move) new
    rcases table_move (t := t) (d := d) move with same | ⟨c, a, -, within, args, -⟩
    · rw [same, tables.fresh t d old]
    · exact absurd (tables.inside c t within) (Nat.not_lt.mpr old)
  within := by
    have within := tables.within
    have inside := tables.inside
    have owner := tables.owner
    cases move with
    | create | update | fetch | dropCtx | fill | dropTlb => exact within
    | _ => grind -ring -linarith [Pc.within, Pc.args]
  inside := by
    have inside := tables.inside
    have owner := tables.owner
    cases move with
    | create | update | fetch | dropCtx | fill | dropTlb => exact inside
    | _ => grind -ring -linarith [Pc.within]
  made := by
    have made := tables.made
    cases move with
    | create | update | fetch | dropCtx | fill | dropTlb => exact made
    | _ => grind -ring -linarith
  empty := by
    intro y a t pc d
    have empty : m.table t d = {} ∧ ∀ c, (m.pc c).within ≠ some t := by
      have empty := tables.empty
      have fresh := tables.fresh
      have unshared := tables.unshared
      have inside := tables.inside
      cases move with
      | create | update | fetch | dropCtx | fill | dropTlb => exact ⟨empty y a t pc d, unshared y a t pc⟩
      | _ => grind -ring -linarith
    rcases table_move (t := t) (d := d) move with same | ⟨c, a, -, within, args, -⟩
    · rw [same, empty.1]
    · exact absurd within (empty.2 c)
  rootless := by
    have rootless := tables.rootless
    have owner := tables.owner
    have sole := tables.sole
    cases move with
    | create | update | fetch | dropCtx | fill | dropTlb => exact rootless
    | _ => grind -ring -linarith
  unshared := by
    have unshared := tables.unshared
    have rootless := tables.rootless
    have inside := tables.inside
    cases move with
    | create | update | fetch | dropCtx | fill | dropTlb => exact unshared
    | _ => grind -ring -linarith [Pc.within]
  sole := by
    have sole := tables.sole
    have made := tables.made
    cases move with
    | create | update | fetch | dropCtx | fill | dropTlb => exact sole
    | _ => grind -ring -linarith

/-! ## The entries -/

end State

/-- The call has seen or made the entry not present. -/
def Pc.cleared : Pc u → Bool
  | .flush _ _ | .setHi _ _ | .setLo _ _ => true
  | _ => false

/-- The call has invalidated the caches. -/
def Pc.flushed : Pc u → Bool
  | .setHi _ _ | .setLo _ _ => true
  | _ => false

namespace State

/-- An entry that an SMMU accepts is the one that was assigned; a call sees to it that meanwhile there is none. -/
structure Entries (cfg : Config u) (m : State k u P F) : Prop where
  live : ∀ dev t s, m.root dev.1 = some t → (m.table t dev.2).lo = some (.space s) →
    cfg.accepts (cfg.home dev) (aw (m.table t dev.2).hi) = true →
      (m.table t dev.2).hi = ctxHi (cfg.lev (cfg.home dev)) s ∧ m.assigned dev = some s
  other : ∀ c a t t', (m.pc c).within = some t → (m.pc c).args = some a → m.root a.dev.1 = some t' → t' ≠ t →
    (m.table t' a.dev.2).lo = none
  cleared : ∀ c a t, (m.pc c).within = some t → (m.pc c).args = some a → (m.pc c).cleared = true →
    (m.table t a.dev.2).lo = none
  high : ∀ c a t, m.pc c = .setLo a t → (m.table t a.dev.2).hi = ctxHi (cfg.lev a.unit) a.space
  free : ∀ c a, (m.pc c).args = some a → (m.pc c).flushed = true → m.assigned a.dev = none

theorem assigned_move {d : Dev} (move : Move cfg m e m') :
    m'.assigned d = m.assigned d ∨ ∃ c a, e = .go c ∧ (m.pc c).args = some a ∧ a.dev = d := by
  cases move with
  | flush | setLo => grind -ring -linarith [Pc.args]
  | _ => exact Or.inl rfl

section Others

variable (others : ∀ c a, e = .go c → (m.pc c).args = some a → a.dev ≠ dev)
include others

/-- The entry of a device changes by a call for it only. -/
theorem table_kept (tables : m.Tables) (move : Move cfg m e m') (bus : m.bus t = dev.1) :
    m'.table t dev.2 = m.table t dev.2 := by
  rcases table_move (t := t) (d := dev.2) move with same | ⟨c, a, is, within, args, dfn⟩
  · exact same
  · exact absurd (Prod.ext ((tables.within c a t within args).symm.trans bus) dfn) (others c a is args)

theorem assigned_kept (move : Move cfg m e m') : m'.assigned dev = m.assigned dev := by
  rcases assigned_move (d := dev) move with same | ⟨c, a, is, args, same⟩
  · exact same
  · exact absurd same (others c a is args)

end Others

/-- While a call is in progress the others are for other devices. -/
theorem Calls.others (calls : m.Calls cfg) {y : Fin k} {a : Args u} (args : (m.pc y).args = some a) (acts : e ≠ .go y) :
    ∀ c b, e = .go c → (m.pc c).args = some b → b.dev ≠ a.dev := by
  intro c b is args' same
  rw [calls.alone args' args same] at is
  exact acts is

theorem live_move (calls : m.Calls cfg) (tables : m.Tables) (entries : m.Entries cfg) (move : Move cfg m e m') {dev : Dev}
    {t s : Nat} (root : m'.root dev.1 = some t) (lo : (m'.table t dev.2).lo = some (.space s))
    (accepted : cfg.accepts (cfg.home dev) (aw (m'.table t dev.2).hi) = true) :
    (m'.table t dev.2).hi = ctxHi (cfg.lev (cfg.home dev)) s ∧ m'.assigned dev = some s := by
  rcases root_move (b := dev.1) move with same | ⟨c, b, t', at_, -, new, tables'⟩
  · rw [same] at root
    by_cases acts : ∃ c a, e = .go c ∧ (m.pc c).args = some a ∧ a.dev = dev
    · obtain ⟨c, a, rfl, args, rfl⟩ := acts
      -- the call for the device: the entry has been cleared, or the new one is complete
      have live := entries.live a.dev t s root
      have other := fun t' => entries.other c a t' t
      have cleared := entries.cleared c a t
      have high := entries.high c a t
      have named := calls.named c a args
      have none := Config.accepts_zero cfg
      cases move <;> grind -ring -linarith [Pc.within, Pc.args, Pc.cleared]
    · have others : ∀ c a, e = .go c → (m.pc c).args = some a → a.dev ≠ dev :=
        fun c a is args same => acts ⟨c, a, is, args, same⟩
      rw [table_kept others tables move (tables.owner _ t root).1] at lo accepted ⊢
      rw [assigned_kept others move]
      exact entries.live dev t s root lo accepted
  · obtain rfl := Option.some.inj (new.symm.trans root)
    rw [tables', tables.empty c b _ at_] at lo
    cases lo

theorem entries_move (calls : m.Calls cfg) (tables : m.Tables) (entries : m.Entries cfg) (move : Move cfg m e m') :
    m'.Entries cfg where
  live := fun dev t s root lo accepted => live_move calls tables entries move root lo accepted
  other := by
    intro y a t t' within args root differ
    by_cases acts : e = .go y
    · subst acts
      have other := entries.other y a t t'
      cases move <;> grind -ring -linarith [Pc.within, Pc.args]
    · rcases pc_move move acts with pc | ⟨-, b, pc⟩
      · rw [pc] at within args
        rcases root_move (b := a.dev.1) move with same | ⟨c, b, t, at_, -, new, tables'⟩
        · rw [same] at root
          rw [table_kept (calls.others args acts) tables move (tables.owner _ t' root).1]
          exact entries.other y a t t' within args root differ
        · obtain rfl := Option.some.inj (new.symm.trans root)
          rw [tables', tables.empty c b _ at_]
      · rw [pc] at within
        cases within
  cleared := by
    intro y a t within args past
    by_cases acts : e = .go y
    · subst acts
      have cleared := entries.cleared y a t
      cases move <;> grind -ring -linarith [Pc.within, Pc.args, Pc.cleared]
    · rcases pc_move move acts with pc | ⟨-, b, pc⟩
      · rw [pc] at within args past
        rw [table_kept (calls.others args acts) tables move (tables.within y a t within args)]
        exact entries.cleared y a t within args past
      · rw [pc] at within
        cases within
  high := by
    intro y a t is
    by_cases acts : e = .go y
    · subst acts
      cases move <;> grind -ring -linarith
    · rcases pc_move move acts with pc | ⟨-, b, pc⟩
      · rw [pc] at is
        have args : (m.pc y).args = some a := by rw [is]; rfl
        rw [table_kept (calls.others args acts) tables move (tables.within y a t (by rw [is]; rfl) args)]
        exact entries.high y a t is
      · rw [pc] at is
        cases is
  free := by
    intro y a args past
    by_cases acts : e = .go y
    · subst acts
      have free := entries.free y a
      cases move <;> grind -ring -linarith [Pc.args, Pc.flushed]
    · rcases pc_move move acts with pc | ⟨-, b, pc⟩
      · rw [pc] at args past
        rw [assigned_kept (calls.others args acts) move]
        exact entries.free y a args past
      · rw [pc] at past
        cases past

/-! ## The caches -/

/-- A cached context entry is the one that was assigned; a cached translation was one of a space with this `Sdid`. -/
structure Cached (cfg : Config u) (m : State k u P F) : Prop where
  ctx : ∀ x dev hi s, (m.unit x).ctx dev = some (hi, .space s) →
    x = cfg.home dev ∧ hi = ctxHi (cfg.lev x) s ∧ m.assigned dev = some s
  tlb : ∀ x d p f, (m.unit x).tlb d p = some f → ∃ s, s < m.spaces ∧ sdid s = d ∧ f ∈ (m.unit x).seen s p
  seen : ∀ x s p f, m.map s p = some f → f ∈ (m.unit x).seen s p
  known : ∀ dev s, m.assigned dev = some s → s < m.spaces

/-- The entry in memory that an SMMU uses is the one that was assigned. -/
theorem Entries.usable (entries : m.Entries cfg) {dev : Dev} {hi s : Nat} (is : m.usable cfg dev = some (hi, .space s)) :
    hi = ctxHi (cfg.lev (cfg.home dev)) s ∧ m.assigned dev = some s := by
  obtain ⟨t, root, is⟩ := Option.bind_eq_some_iff.mp is
  obtain ⟨s', lo, is⟩ := Option.bind_eq_some_iff.mp is
  split at is
  · rename_i accepted
    obtain ⟨rfl, rfl⟩ := Prod.mk.inj (Option.some.inj is)
    exact entries.live dev t s root lo accepted
  · cases is

/-- So is the one in the cache. -/
theorem Cached.context (entries : m.Entries cfg) (cached : m.Cached cfg) {dev : Dev} {c : Bool} {hi s : Nat}
    (is : m.context cfg dev c = some (hi, .space s)) : hi = ctxHi (cfg.lev (cfg.home dev)) s ∧ m.assigned dev = some s := by
  cases c with
  | true => exact (cached.ctx _ dev hi s is).2
  | false => exact entries.usable is

theorem cached_move (calls : m.Calls cfg) (entries : m.Entries cfg) (cached : m.Cached cfg) (move : Move cfg m e m') :
    m'.Cached cfg where
  ctx := by
    intro x dev hi s
    have old := cached.ctx x dev hi s
    have free := entries.free
    have named := calls.named
    have usable : ∀ dev hi s, m.usable cfg dev = some (hi, .space s) → _ := fun dev hi s => entries.usable
    cases move with
    | flush | setLo | fetch | dropCtx | fill | dropTlb => grind -ring -linarith [Pc.args, Pc.flushed]
    | _ => exact old
  tlb := by
    intro x d p f is
    have had : ∃ s, s < m.spaces ∧ sdid s = d ∧ f ∈ (m.unit x).seen s p := by
      rcases tlb_move move is with old | ⟨dev, c, hi, s, context, rfl, rfl, walk⟩
      · exact cached.tlb x d p f old
      · obtain ⟨rfl, assigned⟩ := cached.context entries context
        exact ⟨s, cached.known dev s assigned, (did_ctxHi (cfg.lev_lt _)).symm, cached.seen _ s p f walk⟩
    obtain ⟨s, known, same, had⟩ := had
    rcases seen_move (x := x) move with kept | none
    · exact ⟨s, Nat.lt_of_lt_of_le known (spaces_move move), same, kept s p f had⟩
    · rw [none] at is
      cases is
  seen := by
    intro x s p f
    have old := cached.seen x s p f
    cases move with
    | update | flush | fetch | dropCtx | fill | dropTlb => grind -ring -linarith
    | _ => exact old
  known := by
    intro dev s
    have old := cached.known dev s
    have space := calls.space
    cases move with
    | create | flush | setLo => grind -ring -linarith [Pc.args]
    | _ => exact old

/-- The invariant of all runs in which callers serialise the calls for one SMMU -/
structure Sound (cfg : Config u) (m : State k u P F) : Prop where
  tame : m.Tame cfg
  calls : m.Calls cfg
  tables : m.Tables
  entries : m.Entries cfg
  cached : m.Cached cfg

theorem sound_start : (start k u P F).Sound cfg where
  tame := by
    constructor <;> intros <;> simp_all [start, Pc.args]
  calls := by
    constructor <;> intros <;> simp_all [start, Pc.args]
  tables := by
    constructor <;> intros <;> simp_all [start, Pc.within]
  entries := by
    constructor <;> intros <;> simp_all [start, Pc.within, Pc.args]
  cached := by
    constructor <;> intros <;> simp_all [start]

theorem sound_move (sound : m.Sound cfg) (orderly : Orderly cfg m e) (move : Move cfg m e m') : m'.Sound cfg where
  tame := tame_move sound.tame orderly.2 move
  calls := calls_move sound.calls orderly.1 move
  tables := tables_move sound.tables move
  entries := entries_move sound.calls sound.tables sound.entries move
  cached := cached_move sound.calls sound.entries sound.cached move

theorem sound_step (sound : m.Sound cfg) (orderly : Orderly cfg m e) (done : step cfg e m = some m') : m'.Sound cfg :=
  sound_move sound orderly (step_move sound.tame orderly.2 done)

theorem sound_run {events : List (Event k u P F)} (legal : Legal (step cfg) (Orderly cfg) (start k u P F) events)
    (run : runs (step cfg) (start k u P F) events = some m) : m.Sound cfg :=
  legal.keeps (fun _ _ _ => sound_step) sound_start run

end State

/-! ## What a device reaches -/

local instance one_neZero : NeZero 1 := ⟨by decide⟩

local instance two_neZero : NeZero 2 := ⟨by decide⟩

/-- One SMMU, with address widths 1 and 2 -/
def single : Config 1 where
  sagaw := fun _ => 6
  home := fun _ => 0
  width := fun _ => by decide
  reserved := fun _ => rfl

/-- The call has not changed the entry yet. -/
def Pc.unchanged : Pc u → Bool
  | .clearLo _ _ | .flush _ _ | .setHi _ _ | .setLo _ _ => false
  | _ => true

namespace State

/-- If calls for one bus are serialised, then a call works in the table of the bus, and what was assigned is there. -/
structure Rooted (cfg : Config u) (m : State k u P F) : Prop where
  alone : ∀ c c' a a', (m.pc c).args = some a → (m.pc c').args = some a' → a.dev.1 = a'.dev.1 → c = c'
  unmade : ∀ c a t, m.pc c = .rootSet a t → m.root a.dev.1 = none
  rooted : ∀ c a t, (m.pc c).within = some t → (m.pc c).args = some a → m.root a.dev.1 = some t
  lasts : ∀ dev s, m.assigned dev = some s → (∀ c a, (m.pc c).args = some a → a.dev = dev → (m.pc c).unchanged = true) →
    ∃ t, m.root dev.1 = some t ∧ m.table t dev.2 = ⟨ctxHi (cfg.lev (cfg.home dev)) s, some (.space s)⟩

/-- The device is given to `s`, and no call for it is in progress. -/
def Keeps (m : State k u P F) (dev : Dev) (s : Nat) : Prop :=
  m.assigned dev = some s ∧ ∀ c a, (m.pc c).args = some a → a.dev ≠ dev

theorem Keeps.move (keeps : m.Keeps dev s) (other : ∀ c a, e = .configure c a → a.dev ≠ dev) (move : Move cfg m e m') :
    m'.Keeps dev s := by
  refine ⟨?_, fun c a args => ?_⟩
  · rw [assigned_kept (fun c a _ args => keeps.2 c a args) move, keeps.1]
  · rcases args_move move args with old | starts
    · exact keeps.2 c a old
    · exact other c a starts

theorem Keeps.usable (keeps : m.Keeps dev s) (rooted : m.Rooted cfg) :
    m.usable cfg dev = some (ctxHi (cfg.lev (cfg.home dev)) s, .space s) := by
  obtain ⟨t, root, entry⟩ := rooted.lasts dev s keeps.1 fun c a args is => absurd is (keeps.2 c a args)
  rw [State.usable, root, Option.bind_some, entry, Option.bind_some, aw_ctxHi (cfg.lev_lt _), if_pos (cfg.lev_accepts _)]

end State

/-- Calls for one bus are serialised, too. -/
def Serialised (cfg : Config u) (m : State k u P F) (e : Event k u P F) : Prop := Orderly cfg m e ∧ BusSerial m e

instance Serialised.decidable (cfg : Config u) (m : State k u P F) (e) : Decidable (Serialised cfg m e) :=
  inferInstanceAs (Decidable (_ ∧ _))

/-- Two SMMUs, for the devices with odd and even numbers -/
def double : Config 2 where
  sagaw := fun _ => 6
  home := fun dev => if dev.2.toNat % 2 = 0 then 0 else 1
  width := fun _ => by decide
  reserved := fun _ => rfl

/-- Two CPUs configure a device of a new bus each; both find no table. -/
def together : List (Event 2 2 Bool Bool) :=
  [.create, .update 0 fun _ => some true, .configure 0 ⟨0, 0, (1, 0)⟩, .configure 1 ⟨1, 0, (1, 1)⟩, .go 0, .go 1] ++
    List.replicate 6 (.go 0) ++ List.replicate 6 (.go 1)

/-- The first device has lost its context entry: the table that it is in is no longer the one of the bus. -/
theorem assignment_lost : ∃ m, runs (step double) (start 2 2 Bool Bool) together = some m ∧
    Legal (step double) (Orderly double) (start 2 2 Bool Bool) together ∧ (∀ c, m.pc c = .out) ∧
      m.usable double (1, 1) = some (2, .space 0) ∧ m.usable double (1, 0) = none := by
  have facts : (runs (step double) (start 2 2 Bool Bool) together).map
      (fun m => (decide (m.pc 0 = .out ∧ m.pc 1 = .out), m.usable double (1, 1), m.usable double (1, 0))) =
        some (true, some (2, .space 0), none) := by decide +kernel
  obtain ⟨m, run, is⟩ := Option.map_eq_some_iff.mp facts
  simp only [Prod.mk.injEq, decide_eq_true_eq] at is
  obtain ⟨⟨first, second⟩, usable, lost⟩ := is
  refine ⟨m, run, by decide +kernel, fun c => ?_, usable, lost⟩
  match c with
  | 0 => exact first
  | 1 => exact second

/-- The first call up to its last step -/
def first : List (Event 2 2 Bool Bool) :=
  [.create, .update 0 fun _ => some true, .configure 0 ⟨0, 0, (1, 0)⟩] ++ List.replicate 6 (.go 0)

/-- The DMA space changes, and a second device of the bus is configured. -/
def second : List (Event 2 2 Bool Bool) :=
  [.update 0 fun _ => some false, .configure 1 ⟨1, 0, (1, 1)⟩] ++ List.replicate 6 (.go 1)

end Nova.Kernel.Dma
