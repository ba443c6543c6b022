/-
# Nova.Kernel.Cos — classes of service

`inc/x86_64/cos.hpp`: how many classes of service a CPU has depends on the CPU and on its
configuration, which `sys_ctrl_hw` sets once.  `sys_create_sc` checks the class of service
of the new SC, `Scheduler::schedule` makes it current whenever the SC is dispatched.

The machine of Nova.Kernel.Machine runs next to the configurations of its CPUs.

* `cos_valid`: the class of service that is current on a CPU is always valid there, if
  `sys_create_sc` only lets pass what is valid on the CPU of the SC;
* `not_valid_elsewhere`: it looks at the CPU that executes the hypercall instead.
-/
import Nova.Kernel.Safety

namespace Nova.Kernel.Contexts

open Nova.Theory.Runs

set_option autoImplicit false

/-- The CPU-local data of `Cos` -/
structure Cos where
  config : BitVec 8
  supcfg : BitVec 8
  cosL3 : Nat
  cosL2 : Nat
  cosMb : Nat
  current : Nat
deriving DecidableEq, Repr

namespace Cos

def locked : BitVec 8 := 1#8
def cdpL3 : BitVec 8 := 2#8
def cdpL2 : BitVec 8 := 4#8

/-- `if (cos_num < l) cos_num = l` -/
def grow (num l : Nat) : Nat := if num < l then l else num

/-- `cos_num` in `valid_cos` -/
def num (c : Cos) : Nat :=
  if c.config ≠ 0#8 then
    let l3 := c.cosL3 >>> if c.config &&& cdpL3 ≠ 0#8 then 1 else 0
    let l2 := c.cosL2 >>> if c.config &&& cdpL2 ≠ 0#8 then 1 else 0
    grow (grow (grow 1 l3) l2) c.cosMb
  else 1

def validCos (cos : Nat) (c : Cos) : Bool := cos < c.num

def cfgQos (cfg : BitVec 8) (c : Cos) : Status × Cos :=
  if c.config ≠ 0#8 then (.aborted, c)
  else if c.supcfg &&& cfg ≠ cfg then (.badPar, c)
  else (.success, { c with config := cfg ||| locked })

def makeCurrent (cos : Nat) (c : Cos) : Cos := if c.current ≠ cos then { c with current := cos } else c

theorem le_grow (num l : Nat) : num ≤ grow num l := by
  unfold grow
  split <;> omega

theorem num_pos (c : Cos) : 1 ≤ c.num := by
  unfold num
  dsimp only
  split
  · exact (le_grow 1 _).trans ((le_grow _ _).trans (le_grow _ _))
  · exact le_rfl

theorem validCos_zero (c : Cos) : c.validCos 0 = true := decide_eq_true c.num_pos

/-- Until a CPU is configured it has one class of service, and afterwards it has at least as many. -/
theorem validCos_cfgQos {cos : Nat} {c : Cos} (cfg : BitVec 8) (valid : c.validCos cos = true) :
    (c.cfgQos cfg).2.validCos cos = true := by
  unfold cfgQos
  split
  · exact valid
  · rename_i fresh
    split
    · exact valid
    · have one : c.num = 1 := if_neg fresh
      have zero : cos = 0 := by
        have less : cos < c.num := of_decide_eq_true valid
        omega
      rw [zero]
      exact validCos_zero _

theorem makeCurrent_current (cos : Nat) (c : Cos) : (c.makeCurrent cos).current = cos := by
  unfold makeCurrent
  split
  · rfl
  · rename_i same
    exact of_not_not same

theorem makeCurrent_num (cos : Nat) (c : Cos) : (c.makeCurrent cos).num = c.num := by
  unfold makeCurrent
  split <;> rfl

theorem cfgQos_current (cfg : BitVec 8) (c : Cos) : (c.cfgQos cfg).2.current = c.current := by
  unfold cfgQos
  split
  · rfl
  · split <;> rfl

end Cos

variable {n k : Nat}

/-- `Sc::cos`; `create_idle` and `create_root` pass 0. -/
structure Classes (cfg : Config n k) where
  cos : Nat → Nat
  idle : ∀ c, cos (cfg.idleSc c) = 0

structure Qos (n k : Nat) where
  machine : Machine n k
  cos : Fin k → Cos

/-- An event of the machine, or `sys_ctrl_hw` with a QOS configuration -/
inductive QosEvent (n : Nat)
  | event (e : Machine.Event n)
  | ctrlHw (cfg : BitVec 8)

/-- The SC for which `sys_create_sc` is called -/
def QosEvent.createsSc : QosEvent n → Option Nat
  | .event (.hypercall (.createSc s)) => some s
  | _ => none

/-- `Scheduler::schedule` dispatches an SC. -/
def Machine.Event.dispatches : Machine.Event n → Pc n → Bool
  | .go, .loop _ => true
  | _, _ => false

namespace Qos

variable (cfg : Config n k) (classes : Classes cfg)

/-- A step of the machine, with `Cos::make_current` for the SC that `schedule` dispatches -/
def run (c : Fin k) (e : Machine.Event n) (q : Qos n k) : Option (Qos n k) :=
  match q.machine.step cfg c e with
  | .error _ => none
  | .ok m => some
      { machine := m
        cos :=
          if e.dispatches (q.machine.cpu c).pc then
            Function.update q.cos c ((q.cos c).makeCurrent (classes.cos (m.cpu c).sc))
          else q.cos }

def step (c : Fin k) : QosEvent n → Qos n k → Option (Qos n k)
  | .event (.hypercall (.createSc s)), q =>
      if (q.cos c).validCos (classes.cos s) then q.run cfg classes c (.hypercall (.createSc s))
      else q.run cfg classes c (.hypercall (.other .badPar))
  | .event (.createRoot s), q => if classes.cos s = 0 then q.run cfg classes c (.createRoot s) else some q
  | .event e, q => q.run cfg classes c e
  | .ctrlHw desc, q =>
      if (q.machine.cpu c).pc = .user ∧ cfg.Utcb (q.machine.self c) then
        let (status, cos) := (q.cos c).cfgQos desc
        { q with cos := Function.update q.cos c cos }.run cfg classes c (.hypercall (.other status))
      else some q

end Qos

/-! ## Which SCs exist -/

namespace Machine

variable {cfg : Config n k} {m m' : Machine n k} {c : Fin k}

/-- No SC is created. -/
def Barren (m : Machine n k) : Result n k → Prop := Meets (fun _ => True) fun m' => m'.created = m.created

theorem barren_makeCurrent (e : Fin n) : m.Barren (m.makeCurrent c e) := by
  unfold makeCurrent
  split
  · trivial
  · rfl

theorem clrPartner_created {a : Fin n} {b : Bool} (done : m.clrPartner c a = .ok (b, m')) : m'.created = m.created := by
  unfold clrPartner at done
  cases callee : (m.ec a).callee with
  | none =>
      rw [callee] at done
      cases done
  | some f =>
      rw [callee] at done
      obtain ⟨-, rfl⟩ := Prod.mk.inj (Except.ok.inj done)
      rfl

theorem barren_reply (f : Option Cont) : m.Barren (m.reply cfg c f) := by
  unfold reply
  dsimp only
  split
  · rfl
  · rename_i a caller
    split
    · trivial
    · cases done : clrPartner c a (m.setEc (m.self c) fun x => { x with cont := f }) with
      | error fault => trivial
      | ok result =>
          obtain ⟨b, m₁⟩ := result
          have same := clrPartner_created done
          change m₁.created = m.created at same
          cases b with
          | true => exact (barren_makeCurrent (m := m₁) (c := c) a).mono fun m' is => is.trans same
          | false => exact same

theorem barren_sysIpcReply : m.Barren (m.sysIpcReply cfg c) := by
  unfold sysIpcReply
  split
  · exact barren_reply none
  · split
    · exact barren_reply none
    · trivial

theorem barren_dn (i : Nat) (zero timed : Bool) : m.Barren (m.dn c i zero timed) := by
  unfold dn
  dsimp only
  split
  · rfl
  · split
    · trivial
    · rfl

theorem barren_up (i : Nat) (fail back : Back n) : (m.up c i fail back).created = m.created := by
  unfold up
  split
  · split <;> rfl
  · rfl

theorem barren_timeout (e : Fin n) (back : Back n) : m.Barren (m.timeout cfg c e back) := by
  unfold timeout
  split
  · rfl
  · split
    · rfl
    · dsimp only
      split
      · rfl
      · split
        · rfl
        · trivial

theorem barren_unblock (s : Nat) : m.Barren (m.unblock cfg c s) := by
  unfold unblock readyEnqueue releaseEnqueue
  split
  · split
    · trivial
    · split
      · trivial
      · rfl
  · split
    · trivial
    · rfl

theorem created_create (p : Pc n) (s : Nat) : Meets (fun _ => True) (fun m' => m'.created = s :: m.created)
    (({ m with created := s :: m.created }.unblock cfg c s).map (goto c p)) :=
  Meets.map (barren_unblock (m := { m with created := s :: m.created }) s)

/-- The SC that an event may create -/
def Event.creates : Event n → Option Nat
  | .hypercall (.createSc s) => some s
  | .createRoot s => some s
  | _ => none

theorem Move.created (move : Move cfg m c m') (user : (m.cpu c).pc ≠ .user) (boot : (m.cpu c).pc ≠ .boot) :
    m'.created = m.created := by
  cases move with
  | @wait e a i pc blocked => cases a <;> rfl
  | @wake e back s rest pc queue =>
      unfold put
      split <;> rfl
  | @create s p creates fresh bound =>
      cases creates with
      | hypercall pc => exact absurd pc user
      | root pc => exact absurd pc boot
  | _ => rfl

theorem barren_go (graph : Graph cfg m.view) : m.Barren (m.go cfg c) := by
  by_cases user : (m.cpu c).pc = .user
  · unfold go
    dsimp only
    rw [user]
    rfl
  by_cases boot : (m.cpu c).pc = .boot
  · unfold go
    dsimp only
    rw [boot]
    rfl
  have moves := step_move (c := c) graph (.go : Event n)
  rw [show m.step cfg c .go = m.go cfg c by rfl] at moves
  cases result : m.go cfg c with
  | error fault => trivial
  | ok m' =>
      rw [result] at moves
      exact Move.created moves user boot

theorem created_hypercall (h : Hypercall) : Meets (fun _ => True)
    (fun m' => m'.created = m.created ∨ ∃ s, (.hypercall h : Event n).creates = some s ∧ m'.created = s :: m.created)
    (m.hypercall cfg c h) := by
  unfold hypercall
  split
  · cases h with
    | ipcCall => exact Or.inl rfl
    | ipcReply => exact barren_sysIpcReply.mono fun m' is => Or.inl is
    | dn i zero timed => exact (barren_dn i zero timed).mono fun m' is => Or.inl is
    | up i => exact Or.inl (barren_up i _ _)
    | ctrlEc => exact Or.inl rfl
    | other s => exact Or.inl rfl
    | createSc s =>
        unfold sysCreateSc
        dsimp only
        split
        · exact Or.inl rfl
        split
        · exact Or.inl rfl
        split
        · exact Or.inl rfl
        · exact (created_create _ s).mono fun m' is => Or.inr ⟨s, rfl, is⟩
  · exact Or.inl rfl

theorem barren_irq (i : Irq n) (x : Msg) : m.Barren (m.irq cfg c i x) := by
  unfold irq
  cases (m.cpu c).pc.resume x with
  | none => rfl
  | some back =>
      cases i with
      | rrq => rfl
      | rke => rfl
      | budget =>
          dsimp only
          split <;> rfl
      | timeout e => exact barren_timeout e back
      | gsi j => exact barren_up j back back

theorem created_root (s : Nat) : Meets (fun _ => True)
    (fun m' => m'.created = m.created ∨ ∃ s', (.createRoot s : Event n).creates = some s' ∧ m'.created = s' :: m.created)
    (m.createRoot cfg c s) := by
  unfold createRoot
  split
  · exact Or.inl rfl
  · exact (barren_unblock (m := { m with created := s :: m.created }) s).mono fun m' is => Or.inr ⟨s, rfl, is⟩

theorem barren_ipc {i : Ipc} (pc : (m.cpu c).pc = .ipc i) (pt : Option (Fin n)) (noWait : Bool) :
    m.Barren (m.ipc cfg c i pt noWait) := by
  have moves : Moves cfg m c (m.ipc cfg c i pt noWait) := moves_ipc pc pt noWait
  cases result : m.ipc cfg c i pt noWait with
  | error fault => trivial
  | ok m' =>
      rw [result] at moves
      exact Move.created moves (by rw [pc]; nofun) (by rw [pc]; nofun)

theorem created_step (graph : Graph cfg m.view) (event : Event n) : Meets (fun _ => True)
    (fun m' => m'.created = m.created ∨ ∃ s, event.creates = some s ∧ m'.created = s :: m.created) (m.step cfg c event) := by
  unfold step
  split
  · exact Or.inl rfl
  · exact (barren_go graph).mono fun m' is => Or.inl is
  · rename_i pt noWait i pc
    exact (barren_ipc pc pt noWait).mono fun m' is => Or.inl is
  · rename_i s pc
    exact created_root s
  · exact created_hypercall _
  · exact Or.inl rfl
  · exact Or.inl rfl
  · exact Or.inl rfl
  · exact (barren_irq _ _).mono fun m' is => Or.inl is
  · exact Or.inl rfl
  · exact Or.inl rfl
  · split <;> exact Or.inl rfl
  · split <;> exact Or.inl rfl
  · exact Or.inl rfl

/-- `sys_create_sc` on CPU `c` creates the SC, if its class of service is valid there. -/
def Admits (cfg : Config n k) (c : Fin k) (s : Nat) (m : Machine n k) : Prop :=
  ((m.cpu c).pc = .user ∧ cfg.Utcb (m.self c)) ∧ s ∉ m.created ∧ ¬ (cfg.prio s = 0 ∨ cfg.budget s = 0) ∧
    cfg.subtype (cfg.ec s) ≠ .ecLocal
deriving Decidable

/-- It creates no SC that it does not admit. -/
theorem admits_of_created {s : Nat} (fresh : s ∉ m.created)
    (done : m.step cfg c (.hypercall (.createSc s)) = .ok m') (created : s ∈ m'.created) : m.Admits cfg c s := by
  by_contra refused
  apply fresh
  unfold step at done
  dsimp only at done
  unfold hypercall at done
  split at done
  · rename_i user
    dsimp only at done
    unfold sysCreateSc at done
    split at done
    · obtain rfl := Except.ok.inj done
      exact created
    split at done
    · obtain rfl := Except.ok.inj done
      exact created
    split at done
    · obtain rfl := Except.ok.inj done
      exact created
    · exact absurd ⟨user, by assumption, by assumption, by assumption⟩ refused
  · obtain rfl := Except.ok.inj done
    exact created

/-- The current SC of a CPU exists, and belongs to that CPU. -/
theorem Sound.current {count : Nat → Nat} (sound : Sound cfg count m) (c : Fin k) :
    (m.cpu c).sc ∈ m.created ∧ cfg.scCpu (m.cpu c).sc = c := by
  obtain ⟨loc, placed, -⟩ := sound.sited
  exact ⟨(placed.site _).created.mpr (placed.born c), placed.owner c⟩

end Machine

/-! ## Runs -/

namespace Qos

variable {cfg : Config n k} {classes : Classes cfg} {count : Nat → Nat} {q q' : Qos n k} {c : Fin k}

/-- Every SC has a class of service that is valid on its CPU. -/
structure Served (cfg : Config n k) (classes : Classes cfg) (count : Nat → Nat) (q : Qos n k) : Prop where
  sound : Machine.Sound cfg count q.machine
  created : ∀ s ∈ q.machine.created, (q.cos (cfg.scCpu s)).validCos (classes.cos s) = true
  current : ∀ c, (q.cos c).validCos (q.cos c).current = true

theorem validCos_makeCurrent (cos : Nat) (x : Cos) (s : Nat) : (x.makeCurrent cos).validCos s = x.validCos s := by
  unfold Cos.validCos
  rw [Cos.makeCurrent_num]

theorem run_served (served : Served cfg classes count q) (c : Fin k) (e : Machine.Event n)
    (creates : ∀ s, e.creates = some s → s ∉ q.machine.created →
      (∃ m, q.machine.step cfg c e = .ok m ∧ s ∈ m.created) → (q.cos (cfg.scCpu s)).validCos (classes.cos s) = true) :
    ∃ q', q.run cfg classes c e = some q' ∧ Served cfg classes count q' := by
  obtain ⟨m, done, -, sound⟩ := Machine.step_sound served.sound c e
  have grows := Machine.created_step (c := c) served.sound.graph e
  rw [done] at grows
  have created : ∀ s ∈ m.created, (q.cos (cfg.scCpu s)).validCos (classes.cos s) = true := by
    intro s member
    rcases grows with same | ⟨s', new, more⟩
    · rw [same] at member
      exact served.created s member
    · rw [more] at member
      rcases List.mem_cons.mp member with rfl | member
      · by_cases old : s ∈ q.machine.created
        · exact served.created s old
        · exact creates s new old ⟨m, done, by rw [more]; exact List.mem_cons_self⟩
      · exact served.created s member
  obtain ⟨born, home⟩ := sound.current c
  have mine := created _ born
  rw [home] at mine
  unfold run
  rw [done]
  dsimp only
  split
  · -- `schedule` makes the class of service of the new SC current
    have same : ∀ x s, (Function.update q.cos c ((q.cos c).makeCurrent (classes.cos (m.cpu c).sc)) x).validCos s =
        (q.cos x).validCos s := by
      intro x s
      by_cases here : x = c
      · subst here
        rw [Function.update_self, validCos_makeCurrent]
      · rw [Function.update_of_ne here]
    refine ⟨_, rfl, sound, fun s member => (same _ _).trans (created s member), fun x => ?_⟩
    dsimp only
    rw [same]
    by_cases here : x = c
    · subst here
      rw [Function.update_self, Cos.makeCurrent_current]
      exact mine
    · rw [Function.update_of_ne here]
      exact served.current x
  · exact ⟨_, rfl, sound, created, served.current⟩

/-- What `sys_create_sc` lets pass on the CPU that executes it is valid on the CPU of the SC, unless the call
fails for another reason. -/
def Matches (classes : Classes cfg) (q : Qos n k) (e : Fin k × QosEvent n) : Prop :=
  ∀ s ∈ e.2.createsSc, q.machine.Admits cfg e.1 s → (q.cos e.1).validCos (classes.cos s) = true →
    (q.cos (cfg.scCpu s)).validCos (classes.cos s) = true
deriving Decidable

theorem configure_served (served : Served cfg classes count q) (c : Fin k) (desc : BitVec 8) :
    Served cfg classes count { q with cos := Function.update q.cos c ((q.cos c).cfgQos desc).2 } := by
  have still : ∀ x s, (q.cos x).validCos s = true →
      (Function.update q.cos c ((q.cos c).cfgQos desc).2 x).validCos s = true := by
    intro x s valid
    by_cases here : x = c
    · subst here
      rw [Function.update_self]
      exact Cos.validCos_cfgQos desc valid
    · rw [Function.update_of_ne here]
      exact valid
  have current : ∀ x, (Function.update q.cos c ((q.cos c).cfgQos desc).2 x).current = (q.cos x).current := by
    intro x
    by_cases here : x = c
    · subst here
      rw [Function.update_self, Cos.cfgQos_current]
    · rw [Function.update_of_ne here]
  refine ⟨served.sound, fun s member => still _ _ (served.created s member), fun x => ?_⟩
  dsimp only
  rw [current]
  exact still x _ (served.current x)

theorem step_served (served : Served cfg classes count q) (e : Fin k × QosEvent n) (same : Matches classes q e) :
    ∃ q', q.step cfg classes e.1 e.2 = some q' ∧ Served cfg classes count q' := by
  obtain ⟨c, e⟩ := e
  cases e with
  | ctrlHw desc =>
      unfold step
      dsimp only
      split
      · exact run_served (configure_served served c desc) c _ nofun
      · exact ⟨q, rfl, served⟩
  | event e =>
      cases e with
      | createRoot s =>
          unfold step
          dsimp only
          split
          · rename_i zero
            refine run_served served c _ fun s' is _ _ => ?_
            obtain rfl := Option.some.inj is
            rw [zero]
            exact Cos.validCos_zero _
          · exact ⟨q, rfl, served⟩
      | hypercall h =>
          cases h with
          | createSc s =>
              unfold step
              dsimp only
              split
              · rename_i valid
                refine run_served served c _ fun s' is fresh created => ?_
                obtain rfl := Option.some.inj is
                obtain ⟨m, done, member⟩ := created
                exact same s rfl (Machine.admits_of_created fresh done member) valid
              · exact run_served served c _ nofun
          | _ => exact run_served served c _ nofun
      | _ =>
          unfold step
          exact run_served served c _ nofun

def start (cfg : Config n k) (root : Option (Fin n)) (vm : Msg) (count : Nat → Nat) (cos : Fin k → Cos) : Qos n k :=
  ⟨.init cfg root vm count, cos⟩

/-- **Classes of service**: in every run in which `sys_create_sc` lets nothing pass that is not
valid on the CPU of the SC, the class of service that `schedule` has activated on a CPU is valid
there, whatever the CPUs support and however they are configured. -/
theorem cos_valid (cfg : Config n k) (classes : Classes cfg) (root : Option (Fin n)) (vm : Msg) (count : Nat → Nat)
    (cos : Fin k → Cos) (zero : ∀ c, (cos c).current = 0) (events : List (Fin k × QosEvent n))
    (same : Legal (fun e q => step cfg classes e.1 e.2 q) (Matches classes) (start cfg root vm count cos) events) :
    ∃ q, runs (fun e q => step cfg classes e.1 e.2 q) (start cfg root vm count cos) events = some q ∧
      ∀ c, (q.cos c).validCos (q.cos c).current = true := by
  have boot : Served cfg classes count (start cfg root vm count cos) := by
    refine ⟨Machine.sound_init cfg root vm count, fun s member => ?_, fun c => ?_⟩
    · obtain ⟨c, -, rfl⟩ := List.mem_map.mp member
      rw [classes.idle]
      exact Cos.validCos_zero _
    · show (cos c).validCos (cos c).current = true
      rw [zero]
      exact Cos.validCos_zero _
  obtain ⟨q, reached, served⟩ := Legal.safe (I := Served cfg classes count) (fun q e served same => step_served served e same)
    events _ boot same
  exact ⟨q, reached, served.current⟩

local instance : NeZero 2 := ⟨by decide⟩
local instance : NeZero 4 := ⟨by decide⟩

/-- Two CPUs with their idle ECs 0 and 1, the root EC 2 with the SC 2 on the first CPU, and the EC 3
on the second CPU -/
def twoCpus : Config 4 2 where
  subtype := fun _ => .ecGlobal
  cpu := fun e => if e = 0 ∨ e = 2 then 0 else 1
  ec := fun s => if s = 0 then 0 else if s = 1 then 1 else if s = 2 then 2 else 3
  prio := fun s => if s < 2 then 0 else 1
  budget := fun _ => 10
  idleEc := fun c => if c = 0 then 0 else 1
  idleSc := fun c => if c = 0 then 0 else 1
  prio_lt := by
    intro s
    show (if s < 2 then 0 else 1) < 128
    split <;> decide
  idle_cpu := by decide
  idle_subtype := fun _ => rfl
  idle_ec := by decide
  idle_only := by
    intro s c is
    match s with
    | 0 => revert c; decide
    | 1 => revert c; decide
    | 2 => revert c; decide
    | s + 3 =>
        rw [if_neg (by omega), if_neg (by omega), if_neg (by omega)] at is
        split at is <;> cases is
  idle_prio := by decide
  ec_count := by decide

def five : Classes twoCpus where
  cos s := if s = 3 then 5 else 0
  idle := by decide

/-- 16 classes of service for the L3 cache -/
def sixteen (config : BitVec 8) : Cos := ⟨config, 2#8, 16, 0, 0, 0⟩

/-- The root EC configures its own CPU and creates an SC for the EC on the other CPU, which
dispatches it. -/
def crossing : List (Fin 2 × QosEvent 4) :=
  [(0, .event (.createRoot 2)), (0, .event .go), (0, .event .go), (0, .event .go), (0, .event .go), (0, .event .go),
    (0, .event .go), (0, .ctrlHw 0#8), (0, .event .go), (0, .event .go), (0, .event (.hypercall (.createSc 3))),
    (1, .event .go), (1, .event .go), (1, .event .go), (1, .event .go), (1, .event .go),
    (1, .event (.irq .rrq .vmexitVmx)), (1, .event .go), (1, .event .go), (1, .event .go), (1, .event .go),
    (1, .event .go), (1, .event .go)]

/-- The other CPU has been configured before. -/
theorem cos_valid_crossing : ∃ q, runs (fun e q => step twoCpus five e.1 e.2 q)
    (start twoCpus (some 2) .vmexitVmx (fun _ => 0) fun c => sixteen (if c = 0 then 0#8 else 1#8)) crossing = some q ∧
      ∀ c, (q.cos c).validCos (q.cos c).current = true :=
  cos_valid twoCpus five (some 2) .vmexitVmx _ _ (by decide) crossing (by decide +kernel)

/-- **A class of service is activated on a CPU that does not have it**: the CPU is not configured. -/
theorem not_valid_elsewhere : ¬ ∀ (cos : Fin 2 → Cos) (events : List (Fin 2 × QosEvent 4)) (q : Qos 4 2),
    (∀ c, (cos c).current = 0) →
    runs (fun e q => step twoCpus five e.1 e.2 q) (start twoCpus (some 2) .vmexitVmx (fun _ => 0) cos) events = some q →
    ∀ c, (q.cos c).validCos (q.cos c).current = true := by
  intro always
  have final : (runs (fun e q => step twoCpus five e.1 e.2 q)
      (start twoCpus (some 2) .vmexitVmx (fun _ => 0) fun _ => sixteen 0#8) crossing).map (fun q => q.cos 1) =
      some { sixteen 0#8 with current := 5 } := by
    decide +kernel
  obtain ⟨q, reached, is⟩ := Option.map_eq_some_iff.mp final
  have valid := always (fun _ => sixteen 0#8) crossing q (fun _ => rfl) reached 1
  rw [is] at valid
  revert valid
  decide

end Qos

end Nova.Kernel.Contexts
