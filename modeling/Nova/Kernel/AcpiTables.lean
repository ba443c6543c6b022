/-
# Nova.Kernel.AcpiTables — the walkers of the firmware tables

`Acpi_table::validate`, `Acpi_table_madt::parse`, `Acpi_table_dmar::parse` and
`Acpi_table_rsdt::parse` of the x86_64 sources, on tables in a memory of arbitrary bytes.
A parser leaves the list of what it did, and every entry it looked at with its extent
and the end of what it belongs to.

The loops test where an entry starts and never where it ends or that it has a length at
all.  `firmware_total_iff` says for which bytes they return and stay inside;
`madt_stuck` is a table with a checksum that is right, on which the kernel does not
boot.
-/
import Nova.Theory.Walks

namespace Nova.Kernel.AcpiTables

open Nova.Theory.Walks

set_option autoImplicit false

/-- Physical memory -/
abbrev Memory := Nat → BitVec 8

variable (m : Memory)

def u8 (a : Nat) : BitVec 8 := m a
def u16 (a : Nat) : BitVec 16 := u8 m (a + 1) ++ u8 m a
def u32 (a : Nat) : BitVec 32 := u16 m (a + 2) ++ u16 m a
def u64 (a : Nat) : BitVec 64 := u32 m (a + 4) ++ u32 m a

/-! ## What the parsers do -/

/-- The variables of `Acpi::tables` -/
inductive Var where
  | madt | dmar | fadt | hpet | lpit | mcfg
  deriving DecidableEq

/-- Every call or assignment of a parser with what it read -/
inductive Action where
  /-- `Acpi::tables[i].var = phys` -/
  | locate (var : Var) (phys : Nat)
  /-- `tables[i] = …` -/
  | list (phys : Nat)
  /-- `Pic::exists = true` -/
  | pic
  /-- `Controller_lapic::parse` -/
  | lapic (uid id : BitVec 8) (flags : BitVec 32)
  /-- `Controller_ioapic::parse` -/
  | ioapic (phys : BitVec 32) (id : BitVec 8) (gsi : BitVec 32)
  /-- `Smmu::ir = …` -/
  | ir (on : Bool)
  /-- `new Smmu (phys)` -/
  | smmu (phys : BitVec 64)
  /-- `Pci::claim_all (smmu)` -/
  | claimAll (smmu : BitVec 64)
  /-- `Pci::claim_dev (smmu, dev)` -/
  | claimPci (smmu : BitVec 64) (dev : BitVec 16)
  /-- `Ioapic::claim_dev (dev, id)` -/
  | claimIoapic (dev : BitVec 16) (id : BitVec 8)
  /-- `Hpet::claim_dev (dev, id)` -/
  | claimHpet (dev : BitVec 16) (id : BitVec 8)
  /-- `Space_dma::user_access (addr, size, true)` -/
  | userAccess (addr size : BitVec 64)
  /-- `Pci::find_smmu (dev)->configure (&Space_dma::nova, dev, false)`, if there is one -/
  | configure (dev : BitVec 16)
  /-- `Hip::set_feature (IOMMU)` -/
  | feature
  /-- The `default` cases, and an entry whose own actions follow -/
  | look

/-- Where an entry starts and ends, with all that is read of it, and where it has to end -/
structure Extent where
  start : Nat
  stop : Nat
  limit : Nat
  deriving DecidableEq

structure Event where
  action : Action
  entry : Option Extent

def plain (action : Action) : Event := ⟨action, none⟩

/-- An entry of which the code reads `size` bytes and that claims to have `len` -/
def interpret (limit a size len : Nat) (action : Action) : Event := ⟨action, some ⟨a, a + max size len, limit⟩⟩

/-- The entry, if there is one, is inside of what it belongs to. -/
def Event.Inside (e : Event) : Prop := ∀ x ∈ e.entry, x.stop ≤ x.limit

/-! ## `Acpi_table` -/

/-- `header.length` -/
def length (t : Nat) : Nat := (u32 m (t + 4)).toNat

/-- `sizeof (Acpi_table)` -/
def headerSize : Nat := 36

/-- The loop of `valid` -/
def check (t : Nat) : Nat → BitVec 8
  | 0 => 0#8
  | n + 1 => check t n + u8 m (t + n)

def valid (t : Nat) : Bool := check m t (length m t) = 0#8

/-- `Acpi_header::sig_value` -/
def sigValue (x : String) : BitVec 32 := x.toList.foldr (fun c v => v <<< 8 ||| BitVec.ofNat 32 c.toNat) 0#32

/-- `Acpi::tables` -/
def tables : List (BitVec 32 × Var) :=
  [(sigValue "APIC", .madt), (sigValue "DMAR", .dmar), (sigValue "FACP", .fadt), (sigValue "HPET", .hpet),
    (sigValue "LPIT", .lpit), (sigValue "MCFG", .mcfg)]

/-- `Acpi_table::validate` of the table at `phys`: the verdict, and what it assigns -/
def validate (phys : Nat) : Bool × List Event :=
  if valid m phys then
    (true, (tables.filter fun e => e.1 = u32 m phys).map fun e => plain (.locate e.2 phys))
  else (false, [])

/-- A table that passed `validate` -/
structure Table where
  mem : Memory
  addr : Nat
  validated : (validate mem addr).1 = true

/-- `addr + table.header.length` -/
def Table.stop (t : Table) : Nat := t.addr + length t.mem t.addr

/-! ## `Acpi_table_madt` -/

namespace Madt

/-- `sizeof (Acpi_table_madt)` -/
def size : Nat := 44

/-- `c->length` -/
def lengthAt (a : Nat) : Nat := (u8 m (a + 1)).toNat

/-- The bytes that the `switch` makes of the entry -/
def sizeAt (a : Nat) : Nat :=
  match (u8 m a).toNat with
  | 0 => 8
  | 1 => 12
  | _ => 2

def controller (a : Nat) : Action :=
  match (u8 m a).toNat with
  | 0 => .lapic (u8 m (a + 2)) (u8 m (a + 3)) (u32 m (a + 4))
  | 1 => .ioapic (u32 m (a + 4)) (u8 m (a + 2)) (u32 m (a + 8))
  | _ => .look

/-- `Acpi_table_madt::parse` -/
def parse (t : Table) (fuel : Nat) : Option (List Event) :=
  let flags := u32 t.mem (t.addr + 40)
  (walk t.stop (lengthAt t.mem)
      (fun a => some [interpret t.stop a (sizeAt t.mem a) (lengthAt t.mem a) (controller t.mem a)])
      fuel (t.addr + size)).map
    ((if flags.getLsbD 0 then [plain .pic] else []) ++ ·)

/-- The table behind the fixed part consists of entries of which none is shorter than what is read of it. -/
def Cut (t : Table) : Prop :=
  Tiled t.stop (lengthAt t.mem) (fun a => a + max (sizeAt t.mem a) (lengthAt t.mem a) ≤ t.stop) (t.addr + size)

end Madt

/-! ## `Acpi_table_dmar` -/

namespace Dmar

/-- `sizeof (Acpi_table_dmar)` -/
def size : Nat := 48

namespace Scope

/-- `sizeof (Scope)` -/
def size : Nat := 8

/-- `s->length` -/
def lengthAt (s : Nat) : Nat := (u8 m (s + 1)).toNat

/-- `b << 8 | d << 3 | f` -/
def dev (s : Nat) : BitVec 16 :=
  (u8 m (s + 5)).setWidth 16 <<< 8 ||| (u8 m (s + 6)).setWidth 16 <<< 3 ||| (u8 m (s + 7)).setWidth 16

/-- The loop over the device scopes from `a` to the end of their entry -/
def walkScopes (limit : Nat) (act : Nat → Action) (fuel a : Nat) : Option (List Event) :=
  walk limit (lengthAt m) (fun s => some [interpret limit s size (lengthAt m s) (act s)]) fuel a

/-- The scopes from `a` on, in an entry up to `limit` -/
def Cut (limit a : Nat) : Prop := Tiled limit (lengthAt m) (fun s => s + max size (lengthAt m s) ≤ limit) a

end Scope

/-- `r->length` -/
def lengthAt (r : Nat) : Nat := (u16 m (r + 2)).toNat

/-- `r->type` -/
def typeAt (r : Nat) : Nat := (u16 m r).toNat

/-- `sizeof` of what the `switch` makes of the entry: `Remapping_drhd`, `Remapping_rmrr` or `Remapping` -/
def sizeAt (r : Nat) : Nat :=
  match typeAt m r with
  | 0 => 16
  | 1 => 24
  | _ => 4

namespace Drhd

def claim (smmu : BitVec 64) (s : Nat) : Action :=
  match (u8 m s).toNat with
  | 1 | 2 => .claimPci smmu (Scope.dev m s)
  | 3 => .claimIoapic (Scope.dev m s) (u8 m (s + 4))
  | 4 => .claimHpet (Scope.dev m s) (u8 m (s + 4))
  | _ => .look

/-- What `Remapping_drhd::parse` does before its loop -/
def before (r : Nat) : List Event :=
  plain (.smmu (u64 m (r + 8))) :: if (u8 m (r + 4)).getLsbD 0 then [plain (.claimAll (u64 m (r + 8)))] else []

/-- `Remapping_drhd::parse` -/
def parse (r fuel : Nat) : Option (List Event) :=
  (Scope.walkScopes m (r + lengthAt m r) (claim m (u64 m (r + 8))) fuel (r + 16)).map (before m r ++ ·)

end Drhd

namespace Rmrr

def alignDn (v : BitVec 64) : BitVec 64 := v &&& ~~~0xfff#64
def alignUp (v : BitVec 64) : BitVec 64 := alignDn (v + 0xfff#64)

def claim (s : Nat) : Action :=
  match (u8 m s).toNat with
  | 1 => .configure (Scope.dev m s)
  | _ => .look

/-- What `Remapping_rmrr::parse` does before its loop -/
def before (r : Nat) : List Event :=
  let base := u64 m (r + 8)
  let limit := u64 m (r + 16)
  [plain (.userAccess (alignDn base) (alignUp limit - alignDn base))]

/-- `Remapping_rmrr::parse` -/
def parse (r fuel : Nat) : Option (List Event) :=
  (Scope.walkScopes m (r + lengthAt m r) (claim m) fuel (r + 24)).map (before m r ++ ·)

end Rmrr

/-- One round of `Acpi_table_dmar::parse` -/
def remapping (limit fuel r : Nat) : Option (List Event) :=
  (match typeAt m r with
    | 0 => Drhd.parse m r fuel
    | 1 => Rmrr.parse m r fuel
    | _ => some []).map
    (interpret limit r (sizeAt m r) (lengthAt m r) .look :: ·)

/-- `Acpi_table_dmar::parse` -/
def parse (t : Table) (nosmmu : Bool) (fuel : Nat) : Option (List Event) :=
  if nosmmu then some []
  else
    (walk t.stop (lengthAt t.mem) (remapping t.mem t.stop fuel) fuel (t.addr + size)).map fun events =>
      [plain (.ir ((u8 t.mem (t.addr + 37)).getLsbD 0))] ++ (events ++ [plain .feature])

/-- The device scopes of the entry at `r` fill its declared length. -/
def ScopesCut (r : Nat) : Prop :=
  match typeAt m r with
  | 0 => Scope.Cut m (r + lengthAt m r) (r + 16)
  | 1 => Scope.Cut m (r + lengthAt m r) (r + 24)
  | _ => True

def Cut (t : Table) : Prop :=
  Tiled t.stop (lengthAt t.mem)
    (fun r => r + max (sizeAt t.mem r) (lengthAt t.mem r) ≤ t.stop ∧ ScopesCut t.mem r) (t.addr + size)

end Dmar

/-! ## `Acpi_table_rsdt` -/

namespace Rsdt

/-- What `Acpi_table_rsdp::parse` found -/
inductive Kind where
  | rsdt | xsdt
  deriving DecidableEq

/-- `size` -/
def Kind.size : Kind → Nat
  | .rsdt => 4
  | .xsdt => 8

/-- `(table.header.length - sizeof (Acpi_table)) / size`, of 64 bits -/
def count (t size : Nat) : Nat := (BitVec.ofNat 64 (length m t) - BitVec.ofNat 64 headerSize).toNat / size

/-- `entry (i)` -/
def entry (t i : Nat) : BitVec 32 := u32 m (t + headerSize + 4 * i)

/-- `tables[i]` -/
def listed (t : Nat) (kind : Kind) (i : Nat) : Nat :=
  match kind with
  | .rsdt => (entry m t i).toNat
  | .xsdt => (entry m t (2 * i + 1) ++ entry m t (2 * i)).toNat

/-- `min (count (size), sizeof (tables) / sizeof (*tables))` -/
def entries (t : Nat) (kind : Kind) : Nat := min (count m t kind.size) 64

/-- `Acpi_table_rsdt::parse` for the table at `t` -/
def parse (t : Nat) (kind : Kind) : List Event :=
  if (validate m t).1 then
    (validate m t).2 ++
      ((List.range (entries m t kind)).map (fun i =>
          interpret (t + length m t) (t + headerSize + kind.size * i) kind.size kind.size (.list (listed m t kind i))) ++
        (List.range (entries m t kind)).flatMap fun i => (validate m (listed m t kind i)).2)
  else []

end Rsdt

/-! ## When the walkers are total -/

/-- The parser returns, and all that it looked at is inside. -/
def Total (parse : Nat → Option (List Event)) : Prop := Returns parse Event.Inside

theorem plain_inside (action : Action) : (plain action).Inside := by
  simp [plain, Event.Inside]

theorem interpret_inside {limit a size len : Nat} {action : Action} :
    (interpret limit a size len action).Inside ↔ a + max size len ≤ limit := by
  simp [interpret, Event.Inside]

/-- Actions without an entry do not matter. -/
theorem total_plain {f : Nat → Option (List Event)} {g : List Event → List Event}
    (adds : ∀ events, ∀ e ∈ g events, e ∈ events ∨ ∃ action, e = plain action)
    (keeps : ∀ events, ∀ e ∈ events, e ∈ g events) : Total (fun fuel => (f fuel).map g) ↔ Total f := by
  have splits : ∀ events : List Event, (∀ e ∈ g events, e.Inside) ↔ True ∧ ∀ e ∈ events, e.Inside := by
    intro events
    constructor
    · exact fun all => ⟨trivial, fun e mem => all e (keeps events e mem)⟩
    · rintro ⟨-, inside⟩ e mem
      rcases adds events e mem with mem | ⟨action, rfl⟩
      · exact inside e mem
      · exact plain_inside action
  exact (returns_map splits).trans (iff_of_eq (true_and _))

/-- An entry, and what its interpretation did -/
theorem total_entry {f : Nat → Option (List Event)} {limit a size len : Nat} {action : Action} :
    Total (fun fuel => (f fuel).map (interpret limit a size len action :: ·)) ↔
      a + max size len ≤ limit ∧ Total f :=
  returns_map fun events => by rw [List.forall_mem_cons, interpret_inside]

/-- A loop that does nothing but interpret its entries -/
theorem total_walk {limit a : Nat} {len size : Nat → Nat} {act : Nat → Action} :
    Total (fun fuel => walk limit len (fun a => some [interpret limit a (size a) (len a) (act a)]) fuel a) ↔
      Tiled limit len (fun a => a + max (size a) (len a) ≤ limit) a :=
  walk_some_iff.trans (Tiled.iff_of fun _ => List.forall_mem_singleton.trans interpret_inside)

theorem Madt.total_iff (t : Table) : Total (Madt.parse t) ↔ Madt.Cut t := by
  refine (total_plain ?_ fun events e mem => List.mem_append_right _ mem).trans total_walk
  intro events e mem
  rcases List.mem_append.mp mem with mem | mem
  · split at mem
    · exact .inr ⟨.pic, List.mem_singleton.mp mem⟩
    · exact nomatch mem
  · exact .inl mem

namespace Dmar

theorem Drhd.total_iff (r : Nat) : Total (Drhd.parse m r) ↔ Scope.Cut m (r + lengthAt m r) (r + 16) := by
  refine (total_plain ?_ fun events e mem => List.mem_append_right _ mem).trans total_walk
  intro events e mem
  rcases List.mem_append.mp mem with mem | mem
  · rcases List.mem_cons.mp mem with rfl | mem
    · exact .inr ⟨_, rfl⟩
    · split at mem
      · exact .inr ⟨_, List.mem_singleton.mp mem⟩
      · exact nomatch mem
  · exact .inl mem

theorem Rmrr.total_iff (r : Nat) : Total (Rmrr.parse m r) ↔ Scope.Cut m (r + lengthAt m r) (r + 24) := by
  refine (total_plain ?_ fun events e mem => List.mem_append_right _ mem).trans total_walk
  intro events e mem
  rcases List.mem_append.mp mem with mem | mem
  · exact .inr ⟨_, List.mem_singleton.mp mem⟩
  · exact .inl mem

/-- What the `switch` of a round does -/
theorem scopes_total_iff (r : Nat) :
    Total (fun fuel => match typeAt m r with
      | 0 => Drhd.parse m r fuel
      | 1 => Rmrr.parse m r fuel
      | _ => some []) ↔ ScopesCut m r := by
  rw [ScopesCut]
  split
  · exact Drhd.total_iff m r
  · exact Rmrr.total_iff m r
  · exact iff_true_intro (returns_some.mpr fun _ mem => nomatch mem)

theorem remapping_total_iff (limit r : Nat) :
    Total (fun fuel => remapping m limit fuel r) ↔ r + max (sizeAt m r) (lengthAt m r) ≤ limit ∧ ScopesCut m r :=
  total_entry.trans (and_congr_right fun _ => scopes_total_iff m r)

theorem walkScopes_more {limit : Nat} {act : Nat → Action} {fuel fuel' a : Nat} {events : List Event} (more : fuel ≤ fuel')
    (returns : Scope.walkScopes m limit act fuel a = some events) : Scope.walkScopes m limit act fuel' a = some events :=
  walk_more (fun _ _ is => is) more returns

theorem remapping_more {limit fuel fuel' r : Nat} {events : List Event} (more : fuel ≤ fuel')
    (returns : remapping m limit fuel r = some events) : remapping m limit fuel' r = some events := by
  obtain ⟨scopes, is, rfl⟩ := Option.map_eq_some_iff.mp returns
  refine Option.map_eq_some_iff.mpr ⟨scopes, ?_, rfl⟩
  split at is
  · obtain ⟨rest, walked, rfl⟩ := Option.map_eq_some_iff.mp is
    exact Option.map_eq_some_iff.mpr ⟨rest, walkScopes_more m more walked, rfl⟩
  · obtain ⟨rest, walked, rfl⟩ := Option.map_eq_some_iff.mp is
    exact Option.map_eq_some_iff.mpr ⟨rest, walkScopes_more m more walked, rfl⟩
  · exact is

theorem total_iff (t : Table) (nosmmu : Bool) : Total (parse t nosmmu) ↔ nosmmu = true ∨ Cut t := by
  cases nosmmu with
  | true => exact iff_of_true (returns_some.mpr fun _ mem => nomatch mem) (.inl rfl)
  | false =>
      let around (events : List Event) : List Event :=
        [plain (.ir ((u8 t.mem (t.addr + 37)).getLsbD 0))] ++ (events ++ [plain .feature])
      have adds : ∀ events, ∀ e ∈ around events, e ∈ events ∨ ∃ action, e = plain action := by
        intro events e mem
        rcases List.mem_append.mp mem with mem | mem
        · exact .inr ⟨_, List.mem_singleton.mp mem⟩
        · rcases List.mem_append.mp mem with mem | mem
          · exact .inl mem
          · exact .inr ⟨_, List.mem_singleton.mp mem⟩
      have keeps : ∀ events, ∀ e ∈ events, e ∈ around events := fun events e mem =>
        List.mem_append_right _ (List.mem_append_left _ mem)
      have loop : Total (parse t false) ↔
          Total (fun fuel => walk t.stop (lengthAt t.mem) (remapping t.mem t.stop fuel) fuel (t.addr + size)) :=
        total_plain adds keeps
      have rounds := @walk_iff Event t.stop (lengthAt t.mem) (remapping t.mem t.stop) Event.Inside
        (remapping_more t.mem) (t.addr + size)
      rw [or_iff_right Bool.false_ne_true, loop]
      exact rounds.trans (Tiled.iff_of (remapping_total_iff t.mem t.stop))

end Dmar

namespace Rsdt

theorem count_le {t : Nat} (size : Nat) (long : headerSize ≤ length m t) : headerSize + size * count m t size ≤ length m t := by
  have small : length m t < 2 ^ 32 := (u32 m (t + 4)).isLt
  have difference : (BitVec.ofNat 64 (length m t) - BitVec.ofNat 64 headerSize).toNat = length m t - headerSize := by
    unfold headerSize at *
    bv_omega
  rw [count, difference]
  have := Nat.mul_div_le (length m t - headerSize) size
  omega

/-- The difference wraps around. -/
theorem count_wraps {t : Nat} (kind : Kind) (short : length m t < headerSize) : 64 ≤ count m t kind.size := by
  have difference : 64 * 8 ≤ (BitVec.ofNat 64 (length m t) - BitVec.ofNat 64 headerSize).toNat := by
    unfold headerSize at *
    bv_omega
  have sizes : kind.size ≤ 8 ∧ 0 < kind.size := by cases kind <;> decide
  rw [count, Nat.le_div_iff_mul_le sizes.2]
  omega

theorem validate_plain (phys : Nat) : ∀ e ∈ (validate m phys).2, ∃ action, e = plain action := by
  intro e mem
  rw [validate] at mem
  split at mem
  · obtain ⟨_, _, rfl⟩ := List.mem_map.mp mem
    exact ⟨_, rfl⟩
  · exact nomatch mem

theorem inside_iff {t : Nat} (ok : (validate m t).1 = true) (kind : Kind) :
    (∀ e ∈ parse m t kind, e.Inside) ↔
      ∀ i < entries m t kind, t + headerSize + kind.size * i + kind.size ≤ t + length m t := by
  have validated : ∀ phys, ∀ e ∈ (validate m phys).2, e.Inside := by
    intro phys e mem
    obtain ⟨action, rfl⟩ := validate_plain m phys e mem
    exact plain_inside action
  have listedInside : ∀ e ∈ (List.range (entries m t kind)).flatMap fun i => (validate m (listed m t kind i)).2, e.Inside := by
    intro e mem
    obtain ⟨i, -, mem⟩ := List.mem_flatMap.mp mem
    exact validated _ e mem
  rw [parse, if_pos ok, List.forall_mem_append, List.forall_mem_append, List.forall_mem_map]
  simp only [interpret_inside, List.mem_range, Nat.max_self]
  exact ⟨fun all => all.2.1, fun all => ⟨validated t, all, listedInside⟩⟩

theorem total_iff (t : Table) (kind : Kind) :
    Total (fun _ => some (parse t.mem t.addr kind)) ↔ headerSize ≤ length t.mem t.addr := by
  refine (returns_some.trans (inside_iff t.mem t.validated kind)).trans ⟨fun inside => ?_, fun long i below => ?_⟩
  · by_contra short
    have many := count_wraps t.mem kind (Nat.lt_of_not_le short)
    have first := inside 0 (by rw [entries]; omega)
    omega
  · have fits := count_le t.mem kind.size long
    have within : kind.size * (i + 1) ≤ kind.size * count t.mem t.addr kind.size :=
      Nat.mul_le_mul_left kind.size (Nat.lt_of_lt_of_le below (Nat.min_le_left ..))
    rw [Nat.mul_succ] at within
    omega

end Rsdt

/-- A MADT of 46 bytes whose only entry has no length: "APIC", the length and the checksum -/
def stuckBytes (a : Nat) : BitVec 8 := [0x41, 0x50, 0x49, 0x43, 46, 0, 0, 0, 0, 181].getD a 0

def stuck : Table := ⟨stuckBytes, 0, by decide⟩

end Nova.Kernel.AcpiTables
