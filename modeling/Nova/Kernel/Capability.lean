/-
# Nova.Kernel.Capability — object capabilities

`Capability` of `inc/capability.hpp`: a pointer to a kernel object, with the
permissions in the five bits that the alignment of kernel objects leaves free.
The word 0 is the null capability; a capability without permissions is null,
because the constructor drops the pointer (`Proper`).

`Caps` is what an object space is for: a map from selectors to capabilities, with
the three operations of `Space_obj`.  Selectors are taken modulo `num`.
-/
import Nova.Kernel.Pagetable

namespace Nova.Kernel

open Nova.Theory.Words

set_option autoImplicit false

/-- `Kobject::Type` -/
inductive ObjType where
  | pd | ec | sc | pt | sm
  deriving DecidableEq

/-- `Kobject::Subtype`: its enumerators share values. -/
abbrev ObjSubtype := BitVec 8

namespace ObjSubtype

def none : ObjSubtype := 0#8
def ecLocal : ObjSubtype := 0#8
def ecGlobal : ObjSubtype := 1#8
def ecVcpuReal : ObjSubtype := 2#8
def ecVcpuOffs : ObjSubtype := 3#8
def pd : ObjSubtype := 0#8
def obj : ObjSubtype := 1#8
def hst : ObjSubtype := 2#8
def gst : ObjSubtype := 3#8
def dma : ObjSubtype := 4#8
def pio : ObjSubtype := 5#8
def msr : ObjSubtype := 6#8

end ObjSubtype

/-- Permissions are passed around as `unsigned`. -/
abbrev Perm := BitVec 32

namespace Perm

/-! `Perm_sp`, `Perm_pd`, `Perm_ec`, `Perm_sc`, `Perm_pt`, `Perm_sm` -/

def spGrant : Perm := 1#32
def spTake : Perm := 2#32
def spAssign : Perm := 4#32
def definedObj : Perm := spTake ||| spGrant
def definedHst : Perm := spTake ||| spGrant
def definedGst : Perm := spAssign ||| spGrant
def definedDma : Perm := spAssign ||| spGrant
def definedPio : Perm := spAssign ||| spTake ||| spGrant
def definedMsr : Perm := spAssign ||| spTake ||| spGrant

def pdPd : Perm := 1#32
def pdEc : Perm := 2#32
def pdSc : Perm := 4#32
def pdPt : Perm := 8#32
def pdSm : Perm := 16#32
def definedPd : Perm := pdSm ||| pdPt ||| pdSc ||| pdEc ||| pdPd

def ecCtrl : Perm := 1#32
def ecBindPt : Perm := 4#32
def ecBindSc : Perm := 8#32
def definedEc : Perm := ecBindSc ||| ecBindPt ||| ecCtrl

def scCtrl : Perm := 1#32
def definedSc : Perm := scCtrl

def ptCtrl : Perm := 1#32
def ptCall : Perm := 2#32
def ptEvent : Perm := 4#32
def definedPt : Perm := ptEvent ||| ptCall ||| ptCtrl

def smCtrlUp : Perm := 1#32
def smCtrlDn : Perm := 2#32
def smAssign : Perm := 16#32
def definedSm : Perm := smCtrlDn ||| smCtrlUp
def definedInt : Perm := smCtrlDn ||| smAssign

/-- Every permission of `a` is one of `b`. -/
def Le (a b : Perm) : Prop := a &&& b = a

instance (a b : Perm) : Decidable (a.Le b) := inferInstanceAs (Decidable (_ = _))

theorem Le.refl (a : Perm) : a.Le a := BitVec.and_self

theorem Le.trans {a b c : Perm} (first : a.Le b) (second : b.Le c) : a.Le c := by
  unfold Le at *
  rw [← first, BitVec.and_assoc, second]

theorem and_le (a b : Perm) : (a &&& b).Le a := by
  unfold Le
  rw [BitVec.and_comm a b, BitVec.and_assoc, BitVec.and_self]

/-- Only bits that a capability can hold. -/
def Narrow (p : Perm) : Prop := p.toNat < 2 ^ 5

instance (p : Perm) : Decidable p.Narrow := inferInstanceAs (Decidable (_ < _))

theorem Narrow.and {a : Perm} (narrow : a.Narrow) (b : Perm) : (a &&& b).Narrow := by
  unfold Narrow at *
  rw [BitVec.toNat_and]
  exact lt_of_le_of_lt Nat.and_le_left narrow

theorem Narrow.bit {p : Perm} (narrow : p.Narrow) {i : Nat} (hi : 5 ≤ i) : p.getLsbD i = false := by
  rw [← BitVec.testBit_toNat]
  exact Nat.testBit_lt_two_pow (lt_of_lt_of_le narrow (Nat.pow_le_pow_right (by decide) hi))

end Perm

/-- `Capability::pmask`: `Kobject::alignment - 1` -/
def pmask : Word := lowMask 5

theorem getLsbD_pmask (i : Nat) : pmask.getLsbD i = decide (i < 5) := getLsbD_lowMask (by decide) i

structure Capability where
  val : Word
  deriving DecidableEq

namespace Capability

/-- The null capability -/
def null : Capability := ⟨0#64⟩

/-- `Capability (o, p)` -/
def ofObject (o : Word) (p : Perm) : Capability :=
  ⟨if p ≠ 0#32 then o ||| (p.setWidth 64 &&& pmask) else 0#64⟩

/-- `obj()` -/
def obj (c : Capability) : Word := c.val &&& ~~~ pmask

/-- `prm()` -/
def prm (c : Capability) : Perm := (c.val &&& pmask).setWidth 32

/-- A capability without permissions is null. -/
def Proper (c : Capability) : Prop := c.prm = 0#32 → c = null

/-- `Kobject::alignment` -/
def Aligned (o : Word) : Prop := o &&& pmask = 0#64

instance (o : Word) : Decidable (Aligned o) := inferInstanceAs (Decidable (_ = _))

theorem Aligned.bit {o : Word} (aligned : Aligned o) {i : Nat} (hi : i < 5) : o.getLsbD i = false := by
  have same := congrArg (fun w => BitVec.getLsbD w i) aligned
  simpa [BitVec.getLsbD_and, getLsbD_pmask, hi] using same

theorem getLsbD_prm (c : Capability) (i : Nat) : c.prm.getLsbD i = (c.val.getLsbD i && decide (i < 5)) := by
  rw [prm, BitVec.getLsbD_setWidth, BitVec.getLsbD_and, getLsbD_pmask]
  by_cases low : i < 5
  · simp [low, show i < 32 by omega]
  · simp [low]

theorem getLsbD_obj (c : Capability) (i : Nat) : c.obj.getLsbD i = (c.val.getLsbD i && decide (5 ≤ i)) := by
  rw [obj, BitVec.getLsbD_and, BitVec.getLsbD_not, getLsbD_pmask]
  by_cases hi : i < 64
  · by_cases low : i < 5
    · simp [low]
    · simp [hi, low, Nat.not_lt.mp low]
  · simp [BitVec.getLsbD_of_ge c.val i (Nat.not_lt.mp hi)]

theorem prm_narrow (c : Capability) : c.prm.Narrow := by
  have low := toNat_and_lowMask c.val (k := 5) (by decide)
  have small : c.val.toNat % 2 ^ 5 < 2 ^ 5 := Nat.mod_lt _ (by decide)
  unfold Perm.Narrow prm pmask
  rw [BitVec.toNat_setWidth, low, Nat.mod_eq_of_lt (lt_trans small (by decide))]
  exact small

theorem prm_null : null.prm = 0#32 := by decide

theorem obj_null : null.obj = 0#64 := by decide

theorem prm_ofObject {o : Word} (aligned : Aligned o) {p : Perm} (narrow : p.Narrow) :
    (ofObject o p).prm = p := by
  by_cases any : p = 0#32
  · subst any
    exact prm_null
  · apply BitVec.eq_of_getLsbD_eq
    intro i hi
    rw [getLsbD_prm, ofObject, if_pos any, BitVec.getLsbD_or, BitVec.getLsbD_and, BitVec.getLsbD_setWidth,
      getLsbD_pmask]
    by_cases low : i < 5
    · rw [aligned.bit low]
      simp [low, show i < 64 by omega]
    · simp [low, narrow.bit (Nat.not_lt.mp low)]

theorem obj_ofObject {o : Word} (aligned : Aligned o) {p : Perm} (any : p ≠ 0#32) :
    (ofObject o p).obj = o := by
  apply BitVec.eq_of_getLsbD_eq
  intro i hi
  rw [getLsbD_obj, ofObject, if_pos any, BitVec.getLsbD_or, BitVec.getLsbD_and, getLsbD_pmask]
  by_cases low : i < 5
  · simp [low, aligned.bit low]
  · simp [low, Nat.not_lt.mp low]

theorem aligned_obj (c : Capability) : Aligned c.obj := by
  unfold Aligned obj
  rw [BitVec.and_assoc, BitVec.not_and_self]
  exact BitVec.and_zero

theorem ofObject_zero (o : Word) : ofObject o 0#32 = null := rfl

theorem proper_ofObject {o : Word} (aligned : Aligned o) {p : Perm} (narrow : p.Narrow) :
    (ofObject o p).Proper := by
  intro nothing
  rw [prm_ofObject aligned narrow] at nothing
  rw [nothing, ofObject_zero]

end Capability

/-! ## Maps from selectors to capabilities -/

/-- `Space_obj::lev` -/
abbrev objLev : Nat := 2

/-- `Space_obj::num` -/
def objNum : Nat := 2 ^ (objLev * bpl)

/-- The capabilities of an object space, by selector. -/
abbrev Caps := Fin objNum → Capability

namespace Caps

/-- The place of a selector -/
def key (sel : Word) : Fin objNum := ⟨sel.toNat % objNum, Nat.mod_lt _ (by decide)⟩

def empty : Caps := fun _ => .null

/-- `Space_obj::lookup` -/
def lookup (m : Caps) (sel : Word) : Capability := m (key sel)

def store (m : Caps) (sel : Word) (cap : Capability) : Caps := Function.update m (key sel) cap

/-- `Space_obj::insert`; `memory` says whether there was memory for the tables. -/
def insert (m : Caps) (sel : Word) (cap : Capability) (memory : Bool) : Status × Caps :=
  if !memory then (.insMem, m)
  else if m.lookup sel = .null then (.success, m.store sel cap)
  else (.badCap, m)

/-- `Space_obj::update`, with the old capability -/
def update (m : Caps) (sel : Word) (cap : Capability) (memory : Bool) : Status × Capability × Caps :=
  if !memory then (.insMem, .null, m) else (.success, m.lookup sel, m.store sel cap)

end Caps

end Nova.Kernel
