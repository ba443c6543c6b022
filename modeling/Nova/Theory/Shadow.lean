/-
# Nova.Theory.Shadow — a register of which a guest sees some bits through a shadow

The owner of a register lets a guest use some of its bits and hides the others behind
`mask`: there the guest reads `shadow`, and a write of it does not get through.  `msk` are
the bits that the owner needs for itself, with the values `forced`; it may hide more
(`also`), to be told when the guest changes them.

* `Sound.load`: what the owner takes for the value of the guest is the value that the guest sees.
* `visible_store`: the guest sees what the owner stores for it.
* `visible_hide`: a change of the mask is unseen exactly if no newly hidden bit is stale.
-/
import Mathlib

namespace Nova.Theory.Shadow

set_option autoImplicit false

variable {n : Nat}

structure Register (n : Nat) where
  real : BitVec n
  mask : BitVec n
  shadow : BitVec n
  copy : BitVec n

namespace Register

variable (r : Register n) (msk forced also : BitVec n)

/-- The value for the guest -/
def visible : BitVec n := (r.real &&& ~~~ r.mask) ||| (r.shadow &&& r.mask)

/-- … and for the owner, who looks at its copy of the shadow -/
def load : BitVec n := (r.real &&& ~~~ msk) ||| (r.copy &&& msk)

def store (v : BitVec n) : Register n := { r with real := (v &&& ~~~ msk) ||| forced, shadow := v, copy := v }

def hide : Register n := { r with mask := msk ||| also }

/-- A write of the guest -/
def write (v : BitVec n) : Register n := { r with real := (r.real &&& r.mask) ||| (v &&& ~~~ r.mask) }

/-- The bits that a mask with `also` hides for the first time, although the shadow does not have their value -/
def stale : BitVec n := (r.real ^^^ r.shadow) &&& also &&& ~~~ r.mask

structure Sound : Prop where
  mask : r.mask = msk ||| also
  copy : r.copy = r.shadow
  agree : (r.real ^^^ r.shadow) &&& also &&& ~~~ msk = 0#n
  forced : r.real &&& msk = forced

end Register

/-! ## Bit by bit -/

variable {r : Register n} {msk forced also : BitVec n}

namespace Register.Sound

theorem load (sound : r.Sound msk forced also) : r.load msk = r.visible := by
  apply BitVec.eq_of_getLsbD_eq
  intro i small
  have agree := congrArg (fun x => x.getLsbD i) sound.agree
  simp only [Register.load, visible, sound.mask, sound.copy, BitVec.getLsbD_or, BitVec.getLsbD_and, BitVec.getLsbD_not,
    BitVec.getLsbD_xor, BitVec.getLsbD_zero, small, decide_true, Bool.true_and] at agree ⊢
  grind

theorem write (sound : r.Sound msk forced also) (v : BitVec n) : (r.write v).Sound msk forced also where
  mask := sound.mask
  copy := sound.copy
  agree := by
    apply BitVec.eq_of_getLsbD_eq
    intro i small
    have agree := congrArg (fun x => x.getLsbD i) sound.agree
    simp only [Register.write, sound.mask, BitVec.getLsbD_or, BitVec.getLsbD_and, BitVec.getLsbD_not,
      BitVec.getLsbD_xor, BitVec.getLsbD_zero, small, decide_true, Bool.true_and] at agree ⊢
    grind
  forced := by
    rw [← sound.forced]
    apply BitVec.eq_of_getLsbD_eq
    intro i small
    simp only [Register.write, sound.mask, BitVec.getLsbD_or, BitVec.getLsbD_and, BitVec.getLsbD_not, small, decide_true,
      Bool.true_and]
    grind

/-- A change of the mask keeps `Sound`, if … -/
theorem hide (sound : r.Sound msk forced also) {also' : BitVec n} (fresh : r.stale also' = 0#n) :
    (r.hide msk also').Sound msk forced also' where
  mask := rfl
  copy := sound.copy
  agree := by
    apply BitVec.eq_of_getLsbD_eq
    intro i small
    have agree := congrArg (fun x => x.getLsbD i) sound.agree
    have fresh := congrArg (fun x => x.getLsbD i) fresh
    simp only [Register.hide, stale, sound.mask, BitVec.getLsbD_or, BitVec.getLsbD_and, BitVec.getLsbD_not,
      BitVec.getLsbD_xor, BitVec.getLsbD_zero, small, decide_true, Bool.true_and] at agree fresh ⊢
    grind
  forced := sound.forced

/-- … and exactly if the guest does not see it. -/
theorem visible_hide (sound : r.Sound msk forced also) {also' : BitVec n} :
    (r.hide msk also').visible = r.visible ↔ r.stale also' = 0#n := by
  rw [BitVec.eq_of_getLsbD_eq_iff, BitVec.eq_of_getLsbD_eq_iff]
  refine forall_congr' fun i => forall_congr' fun small => ?_
  have agree := congrArg (fun x => x.getLsbD i) sound.agree
  simp only [Register.hide, visible, stale, sound.mask, BitVec.getLsbD_or, BitVec.getLsbD_and, BitVec.getLsbD_not,
    BitVec.getLsbD_xor, BitVec.getLsbD_zero, small, decide_true, Bool.true_and] at agree ⊢
  grind

end Register.Sound

/-! ## Storing -/

/-- Where the mask has the bits of the owner, a store gives the guest what was stored … -/
theorem visible_store (mask : r.mask = msk ||| also) (inside : forced &&& msk = forced) (v : BitVec n) :
    (r.store msk forced v).visible = v := by
  apply BitVec.eq_of_getLsbD_eq
  intro i small
  have inside := congrArg (fun x => x.getLsbD i) inside
  simp only [Register.store, Register.visible, mask, BitVec.getLsbD_or, BitVec.getLsbD_and, BitVec.getLsbD_not, small,
    decide_true, Bool.true_and] at inside ⊢
  grind

/-- … and makes all hidden bits fresh. -/
theorem sound_store (mask : r.mask = msk ||| also) (inside : forced &&& msk = forced) (v : BitVec n) :
    (r.store msk forced v).Sound msk forced also where
  mask := mask
  copy := rfl
  agree := by
    apply BitVec.eq_of_getLsbD_eq
    intro i small
    have inside := congrArg (fun x => x.getLsbD i) inside
    simp only [Register.store, BitVec.getLsbD_or, BitVec.getLsbD_and, BitVec.getLsbD_not, BitVec.getLsbD_xor,
      BitVec.getLsbD_zero, small, decide_true, Bool.true_and] at inside ⊢
    grind
  forced := by
    apply BitVec.eq_of_getLsbD_eq
    intro i small
    have inside := congrArg (fun x => x.getLsbD i) inside
    simp only [Register.store, BitVec.getLsbD_or, BitVec.getLsbD_and, BitVec.getLsbD_not, small, decide_true,
      Bool.true_and] at inside ⊢
    grind

theorem store_hide (v : BitVec n) : (r.store msk forced v).hide msk also = (r.hide msk also).store msk forced v := rfl

end Nova.Theory.Shadow
