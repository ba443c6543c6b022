/-
# Nova.Kernel.PdAttach — the spaces that a PD has once

`Pd::create_obj`, `create_hst` and `create_pio` of `src/pd.cpp`: a PD has at most one
object space, one host space and one attached port space.  A call takes the bit of its
kind in `spaces` with one atomic operation, creates the space, inserts a capability for
it into some object space and publishes the pointer; when one of these fails it gives the
bit back.  `create_pio` goes on without the bit, and then does not publish.

The calls of any number of threads interleave after each access to the PD; creation and
insertion may fail whenever they like.  The state has the calls' results and, as a ghost,
the stores to the three pointers in their order.

* `Move`: what a step can do to the bits and pointers.
* `Inv`: a bit is set exactly for a published pointer or one call that will settle it.
* `attach_protocol`: the protocol of attaching, for every interleaving.
-/
import Nova.Kernel.Pagetable
import Nova.Theory.Runs

namespace Nova.Kernel.Attach

open Nova.Theory.Runs
open Nova.Theory.Words

set_option autoImplicit false

inductive Kind where
  | obj | hst | pio
  deriving DecidableEq

/-- `Kobject::Subtype` -/
def Kind.subtype : Kind → Nat
  | .obj => 1
  | .hst => 2
  | .pio => 5

/-- `BIT (std::to_underlying (s))` -/
def Kind.bit (k : Kind) : BitVec 32 := 1#32 <<< k.subtype

/-- Where a thread is; `a` is the result of `attach`, which is always true after it in the functions that give up
otherwise. -/
inductive Place where
  | idle
  | enter (k : Kind)
  | create (k : Kind) (a : Bool)
  | insert (k : Kind) (a : Bool) (o : Word)
  | publish (k : Kind) (a : Bool) (o : Word)
  | destroy (k : Kind) (a : Bool) (o : Word)
  | detach (k : Kind)
  deriving DecidableEq

/-- The call is about the space of kind `k`. -/
def Place.Of (k : Kind) : Place → Prop
  | .idle => False
  | .enter j | .create j _ | .insert j _ _ | .publish j _ _ | .destroy j _ _ | .detach j => j = k

structure State (T : Type) where
  spaces : BitVec 32
  ptr : Kind → Word
  place : T → Place
  /-- `s` and the pointer returned by the last call -/
  status : T → Status
  ret : T → Word
  stores : List (Kind × Word)

/-- What the environment decides: which function a thread calls, whether `create` and `insert` succeed -/
inductive Input where
  | call (k : Kind)
  | go
  | created (o : Option Word)
  | inserted (s : Status)

namespace State

variable {T : Type} [DecidableEq T]

def start : State T :=
  { spaces := 0#32, ptr := fun _ => 0#64, place := fun _ => .idle, status := fun _ => .success, ret := fun _ => 0#64, stores := [] }

def move (t : T) (p : Place) (s : State T) : State T := { s with place := Function.update s.place t p }

def setStatus (t : T) (r : Status) (s : State T) : State T := { s with status := Function.update s.status t r }

def answer (t : T) (o : Word) (s : State T) : State T :=
  { s with place := Function.update s.place t .idle, ret := Function.update s.ret t o }

/-- The way out of a failed creation: `if (a) detach (..)` in `create_pio`, `detach` in the other two -/
def fail (t : T) (k : Kind) (a : Bool) (s : State T) : State T :=
  if k = .pio ∧ a = false then s.answer t 0#64 else s.move t (.detach k)

/-- One access of the thread `t` -/
def step (i : T × Input) (s : State T) : Option (State T) :=
  let t := i.1
  match s.place t, i.2 with
  | .idle, .call k => some ((s.setStatus t .success).move t (.enter k))
  | .enter k, .go =>
      let a := s.spaces &&& k.bit = 0#32
      let s := { s with spaces := s.spaces ||| k.bit }
      if a then some (s.move t (.create k true))
      else if k = .pio then some (s.move t (.create k false))
      else some ((s.setStatus t .aborted).answer t 0#64)
  | .create k a, .created o =>
      -- `Space_pio::create` needs the host space
      if k = .pio ∧ s.ptr .hst = 0#64 then some ((s.setStatus t .aborted).fail t k a)
      else
        match o with
        | none => some ((s.setStatus t .insMem).fail t k a)
        | some o => if o = 0#64 then none else some (s.move t (.insert k a o))
  | .insert k a o, .inserted r =>
      if r = .success then some ((s.setStatus t r).move t (.publish k a o))
      else some ((s.setStatus t r).move t (.destroy k a o))
  | .publish k a o, .go =>
      if k = .pio ∧ a = false then some (s.answer t o)
      else some ({ s with ptr := Function.update s.ptr k o, stores := s.stores ++ [(k, o)] }.answer t o)
  | .destroy k a _, .go => some (s.fail t k a)
  | .detach k, .go => some ({ s with spaces := s.spaces &&& ~~~ k.bit }.answer t 0#64)
  | _, _ => none

/-- The bit of a kind -/
def attached (s : State T) (k : Kind) : Bool := s.spaces.getLsbD k.subtype

end State

/-! ## What a step can do -/

/-- The kind whose bit the call has taken and will settle -/
def Place.holds : Place → Option Kind
  | .idle | .enter _ => none
  | .create k a | .insert k a _ | .publish k a _ | .destroy k a _ => if k = .pio ∧ a = false then none else some k
  | .detach k => some k

/-- The objects are not null. -/
def Place.Real : Place → Prop
  | .insert _ _ o | .publish _ _ o => o ≠ 0#64
  | _ => True

theorem Place.holds_of {p : Place} {k : Kind} (holds : p.holds = some k) : p.Of k := by
  cases p with
  | idle => cases holds
  | enter j => cases holds
  | detach j => exact Option.some.inj holds
  | create j a | insert j a o | publish j a o | destroy j a o =>
      change (if j = .pio ∧ a = false then none else some j) = some k at holds
      split at holds
      · cases holds
      · exact Option.some.inj holds

theorem getLsbD_bit (j k : Kind) : k.bit.getLsbD j.subtype = decide (j = k) := by
  cases j <;> cases k <;> rfl

theorem attach_iff (x : BitVec 32) (k : Kind) : x &&& k.bit = 0#32 ↔ x.getLsbD k.subtype = false := by
  have small : k.subtype < 32 := by cases k <;> decide
  have bit := and_bit_ne_zero x small
  rw [← Bool.not_eq_true, ← bit, not_not]
  rfl

/-- A step of `t` takes its thread from the place `p` to the place `q`. -/
inductive Effect {T : Type} (s s' : State T) (p q : Place) : Prop where
  | take (k : Kind) (clear : s.attached k = false) (before : p.holds = none) (after : q.holds = some k)
      (spaces : s'.spaces = s.spaces ||| k.bit) (ptr : s'.ptr = s.ptr) (stores : s'.stores = s.stores)
  | keep (same : q.holds = p.holds) (spaces : ∀ k, s'.attached k = s.attached k) (ptr : s'.ptr = s.ptr)
      (stores : s'.stores = s.stores)
  | publish (k : Kind) (o : Word) (before : p.holds = some k) (after : q.holds = none) (real : p.Real → o ≠ 0#64)
      (spaces : s'.spaces = s.spaces) (ptr : s'.ptr = Function.update s.ptr k o) (stores : s'.stores = s.stores ++ [(k, o)])
  | release (k : Kind) (before : p.holds = some k) (after : q.holds = none) (spaces : s'.spaces = s.spaces &&& ~~~ k.bit)
      (ptr : s'.ptr = s.ptr) (stores : s'.stores = s.stores)

/-- A step moves one thread. -/
structure Move {T : Type} [DecidableEq T] (t : T) (q : Place) (s s' : State T) : Prop where
  place : s'.place = Function.update s.place t q
  real : (s.place t).Real → q.Real
  effect : Effect s s' (s.place t) q

section Steps

variable {T : Type} [DecidableEq T] {t : T} {s s' : State T}

theorem Move.fail {r : Status} {k : Kind} {a : Bool} {p : Place} (at_ : s.place t = p)
    (holds : p.holds = if k = .pio ∧ a = false then none else some k) :
    ∃ q, Move t q s ((s.setStatus t r).fail t k a) := by
  unfold State.fail
  split
  · rename_i without
    rw [if_pos without] at holds
    exact ⟨.idle, rfl, fun _ => trivial, .keep (by rw [at_, holds]; rfl) (fun _ => rfl) rfl rfl⟩
  · rename_i bit
    rw [if_neg bit] at holds
    exact ⟨.detach k, rfl, fun _ => trivial, .keep (by rw [at_, holds]; rfl) (fun _ => rfl) rfl rfl⟩

theorem or_bit {x : BitVec 32} {k : Kind} (set : x.getLsbD k.subtype = true) (j : Kind) :
    (x ||| k.bit).getLsbD j.subtype = x.getLsbD j.subtype := by
  rw [BitVec.getLsbD_or, getLsbD_bit]
  by_cases same : j = k
  · rw [same, set]
    rfl
  · rw [decide_eq_false same, Bool.or_false]

/-- **What a step can do** -/
theorem step_cases {i : Input} (run : s.step (t, i) = some s') : ∃ q, Move t q s s' := by
  unfold State.step at run
  dsimp only at run
  split at run
  case h_1 k at_ =>
      obtain rfl := Option.some.inj run
      exact ⟨.enter k, rfl, fun _ => trivial, .keep (by rw [at_]; rfl) (fun _ => rfl) rfl rfl⟩
  case h_2 k at_ =>
      split at run
      · rename_i clear
        obtain rfl := Option.some.inj run
        refine ⟨.create k true, rfl, fun _ => trivial, .take k ((attach_iff _ k).mp clear) (by rw [at_]; rfl) ?_ rfl rfl rfl⟩
        exact if_neg fun without => Bool.noConfusion without.2
      · rename_i taken
        have set : s.spaces.getLsbD k.subtype = true := by
          rwa [attach_iff, Bool.not_eq_false] at taken
        split at run
        · rename_i pio
          obtain rfl := Option.some.inj run
          refine ⟨.create k false, rfl, fun _ => trivial, .keep ?_ (or_bit set) rfl rfl⟩
          rw [at_]
          exact if_pos ⟨pio, rfl⟩
        · obtain rfl := Option.some.inj run
          exact ⟨.idle, rfl, fun _ => trivial, .keep (by rw [at_]; rfl) (or_bit set) rfl rfl⟩
  case h_3 k a o at_ =>
      split at run
      · obtain rfl := Option.some.inj run
        exact Move.fail at_ rfl
      · split at run
        · obtain rfl := Option.some.inj run
          exact Move.fail at_ rfl
        · split at run
          · cases run
          · rename_i real
            obtain rfl := Option.some.inj run
            exact ⟨.insert k a _, rfl, fun _ => real, .keep (by rw [at_]; rfl) (fun _ => rfl) rfl rfl⟩
  case h_4 k a o r at_ =>
      split at run
      · obtain rfl := Option.some.inj run
        refine ⟨.publish k a o, rfl, fun real => ?_, .keep (by rw [at_]; rfl) (fun _ => rfl) rfl rfl⟩
        rw [at_] at real
        exact real
      · obtain rfl := Option.some.inj run
        exact ⟨.destroy k a o, rfl, fun _ => trivial, .keep (by rw [at_]; rfl) (fun _ => rfl) rfl rfl⟩
  case h_5 k a o at_ =>
      split at run
      · rename_i without
        obtain rfl := Option.some.inj run
        refine ⟨.idle, rfl, fun _ => trivial, .keep ?_ (fun _ => rfl) rfl rfl⟩
        rw [at_]
        exact (if_pos without).symm
      · rename_i bit
        obtain rfl := Option.some.inj run
        refine ⟨.idle, rfl, fun _ => trivial, .publish k o ?_ rfl (fun real => ?_) rfl rfl rfl⟩
        · rw [at_]
          exact if_neg bit
        · rw [at_] at real
          exact real
  case h_6 k a o at_ =>
      obtain rfl := Option.some.inj run
      have same : s.fail t k a = (s.setStatus t (s.status t)).fail t k a := by
        rw [State.setStatus, Function.update_eq_self]
      rw [same]
      exact Move.fail at_ rfl
  case h_7 k at_ =>
      obtain rfl := Option.some.inj run
      exact ⟨.idle, rfl, fun _ => trivial, .release k (by rw [at_]; rfl) rfl rfl rfl rfl⟩
  case h_8 => cases run

end Steps

/-! ## The invariant -/

/-- The stores to the pointer of a kind -/
def State.storesOf {T : Type} (s : State T) (k : Kind) : List (Kind × Word) := s.stores.filter fun e => e.1 = k

structure Inv {T : Type} (s : State T) : Prop where
  real : ∀ t, (s.place t).Real
  unique : ∀ k t u, (s.place t).holds = some k → (s.place u).holds = some k → t = u
  unsettled : ∀ k t, (s.place t).holds = some k → s.attached k = true ∧ s.ptr k = 0#64
  owner : ∀ k, s.attached k = true → s.ptr k ≠ 0#64 ∨ ∃ t, (s.place t).holds = some k
  published : ∀ k, s.ptr k ≠ 0#64 → s.attached k = true
  stores : ∀ k, s.storesOf k = if s.ptr k = 0#64 then [] else [(k, s.ptr k)]

section Invariant

variable {T : Type} [DecidableEq T] {t : T} {q : Place} {s s' : State T}

omit [DecidableEq T] in
theorem inv_start : Inv (State.start : State T) where
  real := fun _ => trivial
  unique := fun k t u none => nomatch none
  unsettled := fun k t none => nomatch none
  owner := fun k set => by
    have clear : (State.start : State T).attached k = false := BitVec.getLsbD_zero
    rw [clear] at set
    cases set
  published := fun k some => absurd rfl some
  stores := fun k => rfl

/-- Who holds which bit afterwards -/
theorem Move.holds (move : Move t q s s') (u : T) (k : Kind) :
    (s'.place u).holds = some k ↔ (u = t ∧ q.holds = some k) ∨ (u ≠ t ∧ (s.place u).holds = some k) := by
  rw [move.place]
  by_cases same : u = t
  · subst same
    rw [Function.update_self]
    simp
  · rw [Function.update_of_ne same]
    simp [same]

theorem Move.reals (move : Move t q s s') (real : ∀ u, (s.place u).Real) (u : T) : (s'.place u).Real := by
  rw [move.place]
  by_cases same : u = t
  · rw [same, Function.update_self]
    exact move.real (real t)
  · rw [Function.update_of_ne same]
    exact real u

theorem getLsbD_set {x : BitVec 32} {j k : Kind} : (x ||| k.bit).getLsbD j.subtype = (x.getLsbD j.subtype || decide (j = k)) := by
  rw [BitVec.getLsbD_or, getLsbD_bit]

theorem getLsbD_clear {x : BitVec 32} {j k : Kind} :
    (x &&& ~~~ k.bit).getLsbD j.subtype = (x.getLsbD j.subtype && !decide (j = k)) := by
  have small : j.subtype < 32 := by cases j <;> decide
  rw [BitVec.getLsbD_and, BitVec.getLsbD_not, getLsbD_bit, decide_eq_true small, Bool.true_and]

theorem Inv.step (inv : Inv s) (move : Move t q s s') : Inv s' := by
  have real := move.reals inv.real
  cases move.effect with
  | take k clear before after spaces ptr stores =>
      have unheld : ∀ u, (s.place u).holds ≠ some k := by
        intro u holds
        have set := (inv.unsettled k u holds).1
        rw [clear] at set
        cases set
      have null : s.ptr k = 0#64 := by
        by_contra some
        have set := inv.published k some
        rw [clear] at set
        cases set
      have attached : ∀ j, s'.attached j = (s.attached j || decide (j = k)) := fun j => by
        rw [State.attached, spaces, getLsbD_set, State.attached]
      have holder : ∀ u j, (s'.place u).holds = some j → (u = t ∧ j = k) ∨ (j ≠ k ∧ (s.place u).holds = some j) := by
        intro u j holds
        rcases (move.holds u j).mp holds with ⟨rfl, now⟩ | ⟨-, old⟩
        · exact Or.inl ⟨rfl, (Option.some.inj (after.symm.trans now)).symm⟩
        · exact Or.inr ⟨fun same => unheld u (same ▸ old), old⟩
      refine ⟨real, fun j u v hu hv => ?_, fun j u holds => ?_, fun j set => ?_, fun j some => ?_, fun j => ?_⟩
      · rcases holder u j hu with ⟨rfl, same⟩ | ⟨ne, old⟩
        · rcases holder v j hv with ⟨rfl, -⟩ | ⟨ne, -⟩
          · rfl
          · exact absurd same ne
        · rcases holder v j hv with ⟨-, same⟩ | ⟨-, old'⟩
          · exact absurd same ne
          · exact inv.unique j u v old old'
      · rw [attached, ptr]
        rcases holder u j holds with ⟨-, rfl⟩ | ⟨-, old⟩
        · exact ⟨by rw [decide_eq_true rfl, Bool.or_true], null⟩
        · obtain ⟨set, null⟩ := inv.unsettled j u old
          exact ⟨by rw [set, Bool.true_or], null⟩
      · rw [ptr]
        by_cases same : j = k
        · exact Or.inr ⟨t, (move.holds t j).mpr (Or.inl ⟨rfl, same ▸ after⟩)⟩
        · rw [attached, decide_eq_false same, Bool.or_false] at set
          refine (inv.owner j set).imp id fun ⟨u, holds⟩ => ⟨u, (move.holds u j).mpr (Or.inr ⟨fun isT => ?_, holds⟩)⟩
          rw [isT, before] at holds
          cases holds
      · rw [ptr] at some
        rw [attached, inv.published j some, Bool.true_or]
      · rw [State.storesOf, stores, ptr]
        exact inv.stores j
  | keep same spaces ptr stores =>
      have holder : ∀ u j, (s'.place u).holds = some j ↔ (s.place u).holds = some j := by
        intro u j
        rw [move.holds, same]
        by_cases isT : u = t
        · subst isT
          simp
        · simp [isT]
      refine ⟨real, fun j u v hu hv => ?_, fun j u holds => ?_, fun j set => ?_, fun j some => ?_, fun j => ?_⟩
      · exact inv.unique j u v ((holder u j).mp hu) ((holder v j).mp hv)
      · rw [spaces, ptr]
        exact inv.unsettled j u ((holder u j).mp holds)
      · rw [spaces] at set
        rw [ptr]
        exact (inv.owner j set).imp id fun ⟨u, holds⟩ => ⟨u, (holder u j).mpr holds⟩
      · rw [ptr] at some
        rw [spaces]
        exact inv.published j some
      · rw [State.storesOf, stores, ptr]
        exact inv.stores j
  | publish k o before after nonzero spaces ptr stores =>
      obtain ⟨set, null⟩ := inv.unsettled k t before
      have some := nonzero (inv.real t)
      have holder : ∀ u j, (s'.place u).holds = .some j → u ≠ t ∧ j ≠ k ∧ (s.place u).holds = .some j := by
        intro u j holds
        rcases (move.holds u j).mp holds with ⟨-, now⟩ | ⟨other, old⟩
        · rw [after] at now
          cases now
        · exact ⟨other, fun same => other (inv.unique k u t (same ▸ old) before), old⟩
      have attached : ∀ j, s'.attached j = s.attached j := fun j => by rw [State.attached, spaces, State.attached]
      refine ⟨real, fun j u v hu hv => ?_, fun j u holds => ?_, fun j set' => ?_, fun j some' => ?_, fun j => ?_⟩
      · exact inv.unique j u v (holder u j hu).2.2 (holder v j hv).2.2
      · obtain ⟨-, ne, old⟩ := holder u j holds
        rw [attached, ptr, Function.update_of_ne ne]
        exact inv.unsettled j u old
      · rw [attached] at set'
        by_cases same : j = k
        · rw [ptr, same, Function.update_self]
          exact Or.inl some
        · rw [ptr, Function.update_of_ne same]
          refine (inv.owner j set').imp id fun ⟨u, holds⟩ => ⟨u, (move.holds u j).mpr (Or.inr ⟨fun isT => ?_, holds⟩)⟩
          rw [isT, before] at holds
          exact same (Option.some.inj holds).symm
      · rw [attached]
        by_cases same : j = k
        · rw [same]
          exact set
        · rw [ptr, Function.update_of_ne same] at some'
          exact inv.published j some'
      · have old := inv.stores j
        rw [State.storesOf] at old
        rw [State.storesOf, stores, List.filter_append, old, ptr]
        by_cases same : j = k
        · subst same
          rw [Function.update_self, if_pos null, if_neg some]
          simp
        · rw [Function.update_of_ne same]
          simp [Ne.symm same]
  | release k before after spaces ptr stores =>
      obtain ⟨-, null⟩ := inv.unsettled k t before
      have holder : ∀ u j, (s'.place u).holds = .some j → u ≠ t ∧ j ≠ k ∧ (s.place u).holds = .some j := by
        intro u j holds
        rcases (move.holds u j).mp holds with ⟨-, now⟩ | ⟨other, old⟩
        · rw [after] at now
          cases now
        · exact ⟨other, fun same => other (inv.unique k u t (same ▸ old) before), old⟩
      have attached : ∀ j, s'.attached j = (s.attached j && !decide (j = k)) := fun j => by
        rw [State.attached, spaces, getLsbD_clear, State.attached]
      refine ⟨real, fun j u v hu hv => ?_, fun j u holds => ?_, fun j set => ?_, fun j some => ?_, fun j => ?_⟩
      · exact inv.unique j u v (holder u j hu).2.2 (holder v j hv).2.2
      · obtain ⟨-, ne, old⟩ := holder u j holds
        rw [attached, ptr, decide_eq_false ne, Bool.not_false, Bool.and_true]
        exact inv.unsettled j u old
      · rw [attached, Bool.and_eq_true, Bool.not_eq_true', decide_eq_false_iff_not] at set
        rw [ptr]
        refine (inv.owner j set.1).imp id fun ⟨u, holds⟩ => ⟨u, (move.holds u j).mpr (Or.inr ⟨fun isT => ?_, holds⟩)⟩
        rw [isT, before] at holds
        exact set.2 (Option.some.inj holds).symm
      · rw [ptr] at some
        have ne : j ≠ k := fun same => some (same ▸ null)
        rw [attached, inv.published j some, decide_eq_false ne]
        rfl
      · rw [State.storesOf, stores, ptr]
        exact inv.stores j

/-- A published pointer does not change. -/
theorem Inv.ptr_stays (inv : Inv s) (move : Move t q s s') {k : Kind} (some : s.ptr k ≠ 0#64) : s'.ptr k = s.ptr k := by
  cases move.effect with
  | take j clear before after spaces ptr stores => rw [ptr]
  | keep same spaces ptr stores => rw [ptr]
  | publish j o before after real spaces ptr stores =>
      have ne : k ≠ j := fun same => some (same ▸ (inv.unsettled j t before).2)
      rw [ptr, Function.update_of_ne ne]
  | release j before after spaces ptr stores => rw [ptr]

end Invariant

/-! ## The protocol -/

/-- What holds of the bits and pointers of a PD in every state -/
structure Sound {T : Type} (s : State T) : Prop where
  /-- At most one space of a kind is ever published, and it stays. -/
  once : ∀ k, s.storesOf k = [] ∧ s.ptr k = 0#64 ∨ s.storesOf k = [(k, s.ptr k)] ∧ s.ptr k ≠ 0#64
  attached : ∀ k, s.ptr k ≠ 0#64 → s.attached k = true
  settled : ∀ k, (∀ t, ¬ (s.place t).Of k) → (s.attached k = true ↔ s.ptr k ≠ 0#64)

theorem Inv.sound {T : Type} {s : State T} (inv : Inv s) : Sound s where
  once := fun k => by
    have stores := inv.stores k
    split at stores
    · rename_i null
      exact Or.inl ⟨stores, null⟩
    · rename_i some
      exact Or.inr ⟨stores, some⟩
  attached := inv.published
  settled := fun k none => by
    refine ⟨fun set => (inv.owner k set).resolve_right ?_, inv.published k⟩
    rintro ⟨t, holds⟩
    exact none t (Place.holds_of holds)

/-- The steps of a creation that succeeds with the object `o` -/
def creation {T : Type} (t : T) (k : Kind) (o : Word) : List (T × Input) :=
  [(t, .call k), (t, .go), (t, .created (some o)), (t, .inserted .success), (t, .go)]

section Protocol

variable {T : Type} [DecidableEq T]

/-- A call that finds the bit of its object or host space set changes nothing. -/
theorem enter_attached {s : State T} {t : T} {k : Kind} (once : k ≠ .pio) (at_ : s.place t = .enter k)
    (set : s.attached k = true) : s.step (t, .go) = some ((s.setStatus t .aborted).answer t 0#64) := by
  have taken : ¬ s.spaces &&& k.bit = 0#32 := by
    rw [attach_iff, Bool.not_eq_false]
    exact set
  have same : s.spaces ||| k.bit = s.spaces := by
    apply BitVec.eq_of_getLsbD_eq
    intro i small
    rw [BitVec.getLsbD_or, Kind.bit, ← BitVec.twoPow_eq, BitVec.getLsbD_twoPow]
    by_cases bit : k.subtype = i
    · rw [← bit, show s.spaces.getLsbD k.subtype = true from set, Bool.true_or]
    · simp [bit]
  unfold State.step
  simp only [at_]
  rw [if_neg taken, if_neg once, same]

/-- When the bit is clear, a creation of the kind can succeed. -/
theorem creation_runs {s : State T} {t : T} {k : Kind} {o : Word} (idle : s.place t = .idle) (clear : s.attached k = false)
    (some : o ≠ 0#64) (host : k = .pio → s.ptr .hst ≠ 0#64) :
    ∃ s', runs (fun i s => s.step i) s (creation t k o) = .some s' ∧ s'.ptr k = o ∧ s'.ret t = o ∧ s'.status t = .success ∧
      s'.place t = .idle := by
  have free : s.spaces &&& k.bit = 0#32 := (attach_iff _ k).mpr clear
  have ready : ¬ (k = .pio ∧ s.ptr .hst = 0#64) := fun ⟨pio, null⟩ => host pio null
  let s₁ := (s.setStatus t .success).move t (.enter k)
  let s₂ := { s₁ with spaces := s₁.spaces ||| k.bit }.move t (.create k true)
  let s₃ := s₂.move t (.insert k true o)
  let s₄ := (s₃.setStatus t .success).move t (.publish k true o)
  let s₅ := { s₄ with ptr := Function.update s₄.ptr k o, stores := s₄.stores ++ [(k, o)] }.answer t o
  have first : s.step (t, .call k) = .some s₁ := by
    unfold State.step
    simp only [idle]
    rfl
  have second : s₁.step (t, .go) = .some s₂ := by
    have at_ : s₁.place t = .enter k := Function.update_self ..
    unfold State.step
    simp only [at_]
    exact if_pos free
  have third : s₂.step (t, .created (.some o)) = .some s₃ := by
    have at_ : s₂.place t = .create k true := Function.update_self ..
    unfold State.step
    simp only [at_]
    rw [if_neg (show ¬ (k = .pio ∧ s₂.ptr .hst = 0#64) from ready)]
    exact if_neg some
  have fourth : s₃.step (t, .inserted .success) = .some s₄ := by
    have at_ : s₃.place t = .insert k true o := Function.update_self ..
    unfold State.step
    simp only [at_]
    exact if_pos trivial
  have fifth : s₄.step (t, .go) = .some s₅ := by
    have at_ : s₄.place t = .publish k true o := Function.update_self ..
    unfold State.step
    simp only [at_]
    exact if_neg fun without => Bool.noConfusion without.2
  refine ⟨s₅, ?_, Function.update_self .., Function.update_self .., Function.update_self .., Function.update_self ..⟩
  rw [creation, runs, first, Option.bind_some, runs, second, Option.bind_some, runs, third, Option.bind_some, runs, fourth,
    Option.bind_some, runs, fifth]
  rfl

/-- **The protocol of attaching**, for every interleaving of calls by any number of threads and every pattern of
failures: a space of each kind is published at most once, its pointer never changes and comes with its bit; without a
call for the kind the bit says whether there is a space; a call that finds the bit of its object or host space set
changes nothing; and as long as no space is published, a creation by itself succeeds. -/
theorem attach_protocol {inputs : List (T × Input)} {s : State T} (run : runs (fun i s => s.step i) State.start inputs = some s) :
    Sound s ∧
      (∀ later s', runs (fun i s => s.step i) s later = some s' → ∀ k, s.ptr k ≠ 0#64 → s'.ptr k = s.ptr k) ∧
      (∀ t k, k ≠ .pio → s.place t = .enter k → s.attached k = true →
        s.step (t, .go) = some ((s.setStatus t .aborted).answer t 0#64)) ∧
      ∀ t k o, s.place t = .idle → (∀ u, ¬ (s.place u).Of k) → s.ptr k = 0#64 → (k = .pio → s.ptr .hst ≠ 0#64) → o ≠ 0#64 →
        ∃ s', runs (fun i s => s.step i) s (creation t k o) = some s' ∧ s'.ptr k = o ∧ s'.ret t = o ∧
          s'.status t = .success ∧ s'.place t = .idle := by
  have keeps : ∀ (s : State T) (i : T × Input) (s' : State T), Inv s → s.step i = some s' → Inv s' := by
    rintro s ⟨t, i⟩ s' inv step
    obtain ⟨q, move⟩ := step_cases step
    exact inv.step move
  have inv : Inv s := runs_keeps keeps inv_start run
  refine ⟨inv.sound, fun later s' run' k placed => ?_, fun t k => enter_attached, ?_⟩
  · have fixed : ∀ (u : State T) (i : T × Input) (u' : State T), Inv u ∧ u.ptr k = s.ptr k → u.step i = some u' →
        Inv u' ∧ u'.ptr k = s.ptr k := by
      rintro u ⟨t, i⟩ u' ⟨invU, same⟩ step
      obtain ⟨q, move⟩ := step_cases step
      exact ⟨invU.step move, (invU.ptr_stays move (same ▸ placed)).trans same⟩
    exact (runs_keeps fixed ⟨inv, rfl⟩ run').2
  · intro t k o idle none null host some
    have clear : s.attached k = false := by
      rw [← Bool.not_eq_true, inv.sound.settled k none, not_not]
      exact null
    exact creation_runs idle clear some host

/-- Two threads create an object space at once; the insertion of the first one fails, and the second has given up. -/
theorem attach_protocol_two : Sound ((runs (fun i s => s.step i) (State.start : State (Fin 2))
    [(0, .call .obj), (0, .go), (1, .call .obj), (1, .go), (0, .created (some 1#64)), (0, .inserted .insMem), (0, .go),
      (0, .go)]).getD State.start) ∧
    (runs (fun i s => s.step i) (State.start : State (Fin 2))
      [(0, .call .obj), (0, .go), (1, .call .obj), (1, .go), (0, .created (some 1#64)), (0, .inserted .insMem), (0, .go),
        (0, .go)]).isSome = true := by
  have some : (runs (fun i s => s.step i) (State.start : State (Fin 2))
      [(0, .call .obj), (0, .go), (1, .call .obj), (1, .go), (0, .created (some 1#64)), (0, .inserted .insMem), (0, .go),
        (0, .go)]).isSome = true := by decide
  obtain ⟨s, run⟩ := Option.isSome_iff_exists.mp some
  refine ⟨?_, some⟩
  rw [run]
  exact (attach_protocol run).1

end Protocol

end Nova.Kernel.Attach
