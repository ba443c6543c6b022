/-
# Nova.Kernel.Places — where scheduling contexts are

`Shelves` is the part of a machine that says where each SC is: the queues of the CPUs,
the queues of the ECs, the SCs that run, and those that are retired.  `Site s l` says that
the SC `s` is at the place `l` and nowhere else, and that `queued` tells so.  `Placed loc`
says so of all SCs.

An operation moves at most one SC, first into the hand of the CPU and from there to its
new place; `Placed.move` is the rule for that.  Between two steps no SC is in a hand.
-/
import Nova.Kernel.Partners

namespace Nova.Kernel.Contexts

open Nova.Theory.Chains
open Nova.Theory.Runs

set_option autoImplicit false

variable {n k : Nat}

/-- The current SC runs at this place; otherwise it has been queued or given up. -/
def Pc.holds : Pc n → Bool
  | .schedule blocked => !blocked
  | .loop _ => false
  | _ => true

structure Shelves (n k : Nat) where
  created : List Nat
  retired : List Nat
  ready : Fin k → Nat → List Nat
  release : Fin k → List Nat
  queue : Fin n → List Nat
  queued : Nat → Bool
  sc : Fin k → Nat
  holds : Fin k → Bool

namespace Machine

def shelves (m : Machine n k) : Shelves n k where
  created := m.created
  retired := m.retired
  ready := fun c => (m.cpu c).ready
  release := fun c => (m.cpu c).release
  queue := fun e => (m.ec e).queue
  queued := fun s => (m.sc s).queued
  sc := fun c => (m.cpu c).sc
  holds := fun c => (m.cpu c).pc.holds

section Shelves

variable (m : Machine n k)

theorem shelves_setEc (e : Fin n) (f : Ec n → Ec n) : (m.setEc e f).shelves = { m.shelves with
    queue := Function.update m.shelves.queue e (f (m.ec e)).queue } := by
  simp only [shelves, setEc, comp_update]

theorem shelves_setSc (s : Nat) (f : Sc → Sc) : (m.setSc s f).shelves = { m.shelves with
    queued := Function.update m.shelves.queued s (f (m.sc s)).queued } := by
  simp only [shelves, setSc, comp_update]

@[simp] theorem shelves_setSm (i : Nat) (f : Sm n → Sm n) : (m.setSm i f).shelves = m.shelves := rfl

theorem shelves_setCpu (c : Fin k) (f : Cpu n → Cpu n) : (m.setCpu c f).shelves = { m.shelves with
    ready := Function.update m.shelves.ready c (f (m.cpu c)).ready
    release := Function.update m.shelves.release c (f (m.cpu c)).release
    sc := Function.update m.shelves.sc c (f (m.cpu c)).sc
    holds := Function.update m.shelves.holds c (f (m.cpu c)).pc.holds } := by
  simp only [shelves, setCpu, comp_update, comp_update fun x : Cpu n => x.pc.holds]

@[simp] theorem update_queueSc (e : Fin n) : Function.update m.shelves.queue e (m.ec e).queue = m.shelves.queue :=
  Function.update_eq_self e m.shelves.queue

@[simp] theorem update_queuedSc (s : Nat) : Function.update m.shelves.queued s (m.sc s).queued = m.shelves.queued :=
  Function.update_eq_self s m.shelves.queued

@[simp] theorem update_ready (c : Fin k) : Function.update m.shelves.ready c (m.cpu c).ready = m.shelves.ready :=
  Function.update_eq_self c m.shelves.ready

@[simp] theorem update_release (c : Fin k) : Function.update m.shelves.release c (m.cpu c).release = m.shelves.release :=
  Function.update_eq_self c m.shelves.release

@[simp] theorem update_scOf (c : Fin k) : Function.update m.shelves.sc c (m.cpu c).sc = m.shelves.sc :=
  Function.update_eq_self c m.shelves.sc

@[simp] theorem update_holds (c : Fin k) : Function.update m.shelves.holds c (m.cpu c).pc.holds = m.shelves.holds :=
  Function.update_eq_self c m.shelves.holds

theorem shelves_goto (c : Fin k) (p : Pc n) :
    (m.goto c p).shelves = { m.shelves with holds := Function.update m.shelves.holds c p.holds } := by
  rw [goto, shelves_setCpu, update_ready, update_release, update_scOf]

theorem shelves_goto_of {c : Fin k} {p : Pc n} (same : p.holds = (m.cpu c).pc.holds) : (m.goto c p).shelves = m.shelves := by
  rw [shelves_goto, same, update_holds]

end Shelves

end Machine

/-- `hand` is the place of an SC that an operation has taken from its queue and not yet put
into another one. -/
inductive Loc (n : Nat)
  | unborn | hand | current | ready | release
  | queue (e : Fin n)
  | retired
  deriving DecidableEq

/-- The SC is at the place `l`, and only there. -/
structure Site (cfg : Config n k) (v : Shelves n k) (s : Nat) (l : Loc n) : Prop where
  created : s ∈ v.created ↔ l ≠ .unborn
  retired : s ∈ v.retired ↔ l = .retired
  ready : ∀ c p, s ∈ v.ready c p ↔ l = .ready ∧ cfg.scCpu s = c ∧ cfg.prio s = p
  release : ∀ c, s ∈ v.release c ↔ l = .release ∧ cfg.scCpu s = c
  queue : ∀ e, s ∈ v.queue e ↔ l = .queue e
  queued : v.queued s = true ↔ l = .ready ∨ l = .release ∨ ∃ e, l = .queue e
  current : (∃ c, v.sc c = s ∧ v.holds c = true) ↔ l = .current
  home : ∀ e, l = .queue e → cfg.cpu e = cfg.scCpu s
  bound : l ≠ .unborn → cfg.subtype (cfg.ec s) ≠ .ecLocal

structure Placed (cfg : Config n k) (v : Shelves n k) (loc : Nat → Loc n) : Prop where
  site : ∀ s, Site cfg v s (loc s)
  owner : ∀ c, cfg.scCpu (v.sc c) = c
  born : ∀ c, loc (v.sc c) ≠ .unborn
  readyNodup : ∀ c p, (v.ready c p).Nodup
  releaseNodup : ∀ c, (v.release c).Nodup
  queueNodup : ∀ e, (v.queue e).Nodup

namespace Placed

variable {cfg : Config n k} {v v' : Shelves n k} {loc : Nat → Loc n}

/-- The SC `s` moves to `l`. -/
theorem move (placed : Placed cfg v loc) {s : Nat} {l : Loc n} (here : Site cfg v' s l)
    (created : ∀ x, x ≠ s → (x ∈ v'.created ↔ x ∈ v.created) ∧ (x ∈ v'.retired ↔ x ∈ v.retired))
    (lists : ∀ x, x ≠ s → (∀ c p, x ∈ v'.ready c p ↔ x ∈ v.ready c p) ∧ (∀ c, x ∈ v'.release c ↔ x ∈ v.release c) ∧
      (∀ e, x ∈ v'.queue e ↔ x ∈ v.queue e) ∧ v'.queued x = v.queued x)
    (current : ∀ x, x ≠ s → ((∃ c, v'.sc c = x ∧ v'.holds c = true) ↔ ∃ c, v.sc c = x ∧ v.holds c = true))
    (owner : ∀ c, cfg.scCpu (v'.sc c) = c) (born : ∀ c, v'.sc c ≠ s → loc (v'.sc c) ≠ .unborn)
    (exists_ : l ≠ .unborn) (nodup : (∀ c p, (v'.ready c p).Nodup) ∧ (∀ c, (v'.release c).Nodup) ∧ ∀ e, (v'.queue e).Nodup) :
    Placed cfg v' (Function.update loc s l) := by
  refine ⟨fun x => ?_, owner, fun c => ?_, nodup.1, nodup.2.1, nodup.2.2⟩
  · by_cases same : x = s
    · subst same
      rw [Function.update_self]
      exact here
    · rw [Function.update_of_ne same]
      obtain ⟨isCreated, isRetired⟩ := created x same
      obtain ⟨ready, release, queue, queued⟩ := lists x same
      have site := placed.site x
      exact ⟨isCreated.trans site.created, isRetired.trans site.retired, fun c p => (ready c p).trans (site.ready c p),
        fun c => (release c).trans (site.release c), fun e => (queue e).trans (site.queue e), by rw [queued]; exact site.queued,
        (current x same).trans site.current, site.home, site.bound⟩
  · by_cases same : v'.sc c = s
    · rw [same, Function.update_self]
      exact exists_
    · rw [Function.update_of_ne same]
      exact born c same

/-- The current SC of a CPU that runs it -/
theorem current_loc (placed : Placed cfg v loc) {c : Fin k} (holds : v.holds c = true) : loc (v.sc c) = .current :=
  (placed.site (v.sc c)).current.mp ⟨c, rfl, holds⟩

theorem current_not_queued (placed : Placed cfg v loc) {c : Fin k} (holds : v.holds c = true) : v.queued (v.sc c) = false := by
  have is := placed.current_loc holds
  cases flag : v.queued (v.sc c) with
  | false => rfl
  | true =>
      have := (placed.site (v.sc c)).queued.mp flag
      rw [is] at this
      simp at this

theorem sc_eq (placed : Placed cfg v loc) {c c' : Fin k} (same : v.sc c = v.sc c') : c = c' := by
  rw [← placed.owner c, ← placed.owner c', same]

/-! ### Into the hand -/

/-- The CPU stops running its SC. -/
theorem drop (placed : Placed cfg v loc) {c : Fin k} (holds : v.holds c = true) :
    Placed cfg { v with holds := Function.update v.holds c false } (Function.update loc (v.sc c) .hand) := by
  have is := placed.current_loc holds
  have site := placed.site (v.sc c)
  rw [is] at site
  refine placed.move ⟨?_, ?_, ?_, ?_, ?_, ?_, ?_, nofun, fun _ => site.bound nofun⟩ (fun x _ => ⟨Iff.rfl, Iff.rfl⟩)
    (fun x _ => ⟨fun _ _ => Iff.rfl, fun _ => Iff.rfl, fun _ => Iff.rfl, rfl⟩) ?_ placed.owner
    (fun c' _ => placed.born c') nofun ⟨placed.readyNodup, placed.releaseNodup, placed.queueNodup⟩
  · simpa using site.created
  · simpa using site.retired
  · simpa using site.ready
  · simpa using site.release
  · simpa using site.queue
  · simpa using site.queued
  · refine ⟨fun ⟨c', same, run⟩ => ?_, nofun⟩
    obtain rfl := placed.sc_eq same
    simp at run
  · intro x ne
    refine exists_congr fun c' => and_congr_right fun same => ?_
    have other : c' ≠ c := by
      rintro rfl
      exact ne same.symm
    simp [other]

/-- The first SC in the queue of an EC -/
theorem takeQueue (placed : Placed cfg v loc) {e : Fin n} {s : Nat} {rest : List Nat} (head : v.queue e = s :: rest) :
    Placed cfg { v with queue := Function.update v.queue e rest, queued := Function.update v.queued s false }
      (Function.update loc s .hand) := by
  have is : loc s = .queue e := ((placed.site s).queue e).mp (by simp [head])
  have site := placed.site s
  rw [is] at site
  have nodup := placed.queueNodup e
  rw [head] at nodup
  obtain ⟨gone, nodup'⟩ := List.nodup_cons.mp nodup
  refine placed.move ⟨?_, ?_, ?_, ?_, ?_, ?_, ?_, nofun, fun _ => site.bound nofun⟩ (fun x _ => ⟨Iff.rfl, Iff.rfl⟩)
    (fun x ne => ⟨fun _ _ => Iff.rfl, fun _ => Iff.rfl, fun e' => ?_, Function.update_of_ne ne ..⟩) (fun _ _ => Iff.rfl)
    placed.owner (fun c' _ => placed.born c') nofun ⟨placed.readyNodup, placed.releaseNodup, fun e' => ?_⟩
  · simpa using site.created
  · simpa using site.retired
  · simpa using site.ready
  · simpa using site.release
  · intro e'
    by_cases same : e' = e
    · subst same
      simpa using gone
    · have := site.queue e'
      simpa [same, Ne.symm same] using this
  · simp
  · simpa using site.current
  · by_cases same : e' = e
    · subst same
      simp [head, ne]
    · simp [same]
  · by_cases same : e' = e
    · subst same
      simpa using nodup'
    · simpa [same] using placed.queueNodup e'

/-- The first SC in the release queue of a CPU -/
theorem takeRelease (placed : Placed cfg v loc) {c : Fin k} {s : Nat} {rest : List Nat} (head : v.release c = s :: rest) :
    Placed cfg { v with release := Function.update v.release c rest, queued := Function.update v.queued s false }
      (Function.update loc s .hand) := by
  obtain ⟨is, home⟩ := ((placed.site s).release c).mp (by simp [head])
  have site := placed.site s
  rw [is] at site
  have nodup := placed.releaseNodup c
  rw [head] at nodup
  obtain ⟨gone, nodup'⟩ := List.nodup_cons.mp nodup
  refine placed.move ⟨?_, ?_, ?_, ?_, ?_, ?_, ?_, nofun, fun _ => site.bound nofun⟩ (fun x _ => ⟨Iff.rfl, Iff.rfl⟩)
    (fun x ne => ⟨fun _ _ => Iff.rfl, fun c' => ?_, fun _ => Iff.rfl, Function.update_of_ne ne ..⟩) (fun _ _ => Iff.rfl)
    placed.owner (fun c' _ => placed.born c') nofun ⟨placed.readyNodup, fun c' => ?_, placed.queueNodup⟩
  · simpa using site.created
  · simpa using site.retired
  · simpa using site.ready
  · intro c'
    by_cases same : c' = c
    · subst same
      simpa using gone
    · have := site.release c'
      simpa [same, home, Ne.symm same] using this
  · simpa using site.queue
  · simp
  · simpa using site.current
  · by_cases same : c' = c
    · subst same
      simp [head, ne]
    · simp [same]
  · by_cases same : c' = c
    · subst same
      simpa using nodup'
    · simpa [same] using placed.releaseNodup c'

/-- A new SC -/
theorem create (placed : Placed cfg v loc) {s : Nat} (new : s ∉ v.created) (bound : cfg.subtype (cfg.ec s) ≠ .ecLocal) :
    Placed cfg { v with created := s :: v.created } (Function.update loc s .hand) := by
  have site := placed.site s
  have is : loc s = .unborn := by
    by_contra ne
    exact new (site.created.mpr ne)
  rw [is] at site
  refine placed.move ⟨?_, ?_, ?_, ?_, ?_, ?_, ?_, nofun, fun _ => bound⟩ (fun x ne => ⟨by simp [ne], Iff.rfl⟩)
    (fun x _ => ⟨fun _ _ => Iff.rfl, fun _ => Iff.rfl, fun _ => Iff.rfl, rfl⟩) (fun _ _ => Iff.rfl) placed.owner
    (fun c' _ => placed.born c') nofun ⟨placed.readyNodup, placed.releaseNodup, placed.queueNodup⟩
  · simp
  · simpa using site.retired
  · simpa using site.ready
  · simpa using site.release
  · simpa using site.queue
  · simpa using site.queued
  · simpa using site.current

/-! ### From the hand -/

section Hand

variable (placed : Placed cfg v loc) {s : Nat} (hand : loc s = .hand)
include placed hand

theorem not_queued : v.queued s = false := by
  have := (placed.site s).queued
  rw [hand] at this
  cases flag : v.queued s with
  | false => rfl
  | true => simp [flag] at this

theorem toReady {c : Fin k} (home : cfg.scCpu s = c) {q : List Nat} (perm : q.Perm (s :: v.ready c (cfg.prio s))) :
    Placed cfg { v with
      ready := Function.update v.ready c (Function.update (v.ready c) (cfg.prio s) q)
      queued := Function.update v.queued s true } (Function.update loc s .ready) := by
  have site := placed.site s
  rw [hand] at site
  have absent : ∀ c' p, s ∉ v.ready c' p := fun c' p => by simpa using site.ready c' p
  refine placed.move ⟨?_, ?_, ?_, ?_, ?_, ?_, ?_, nofun, fun _ => site.bound nofun⟩ (fun x _ => ⟨Iff.rfl, Iff.rfl⟩)
    (fun x ne => ⟨fun c' p => ?_, fun _ => Iff.rfl, fun _ => Iff.rfl, Function.update_of_ne ne ..⟩) (fun _ _ => Iff.rfl)
    placed.owner (fun c' _ => placed.born c') nofun ⟨fun c' p => ?_, placed.releaseNodup, placed.queueNodup⟩
  · simpa using site.created
  · simpa using site.retired
  · intro c' p
    by_cases same : c' = c
    · subst same
      by_cases prio : p = cfg.prio s
      · subst prio
        simp [perm.mem_iff, home]
      · simp [prio, Ne.symm prio, absent]
    · simp [same, home, Ne.symm same, absent]
  · simpa using site.release
  · simpa using site.queue
  · simp
  · simpa using site.current
  · by_cases same : c' = c
    · subst same
      by_cases prio : p = cfg.prio s
      · subst prio
        simp [perm.mem_iff, ne]
      · simp [prio]
    · simp [same]
  · by_cases same : c' = c
    · subst same
      by_cases prio : p = cfg.prio s
      · subst prio
        simpa [perm.nodup_iff, absent] using placed.readyNodup c' (cfg.prio s)
      · simpa [prio] using placed.readyNodup c' p
    · simpa [same] using placed.readyNodup c' p

theorem toRelease : Placed cfg { v with
      release := Function.update v.release (cfg.scCpu s) (v.release (cfg.scCpu s) ++ [s])
      queued := Function.update v.queued s true } (Function.update loc s .release) := by
  have site := placed.site s
  rw [hand] at site
  have absent : ∀ c', s ∉ v.release c' := fun c' => by simpa using site.release c'
  refine placed.move ⟨?_, ?_, ?_, ?_, ?_, ?_, ?_, nofun, fun _ => site.bound nofun⟩ (fun x _ => ⟨Iff.rfl, Iff.rfl⟩)
    (fun x ne => ⟨fun _ _ => Iff.rfl, fun c' => ?_, fun _ => Iff.rfl, Function.update_of_ne ne ..⟩) (fun _ _ => Iff.rfl)
    placed.owner (fun c' _ => placed.born c') nofun ⟨placed.readyNodup, fun c' => ?_, placed.queueNodup⟩
  · simpa using site.created
  · simpa using site.retired
  · simpa using site.ready
  · intro c'
    by_cases same : c' = cfg.scCpu s
    · subst same
      simp
    · simp [same, Ne.symm same, absent]
  · simpa using site.queue
  · simp
  · simpa using site.current
  · by_cases same : c' = cfg.scCpu s
    · subst same
      simp [ne]
    · simp [same]
  · by_cases same : c' = cfg.scCpu s
    · subst same
      have apart : ∀ x ∈ v.release (cfg.scCpu s), x ≠ s := fun x member eq => absent _ (eq ▸ member)
      simpa [List.nodup_append] using ⟨placed.releaseNodup (cfg.scCpu s), apart⟩
    · simpa [same] using placed.releaseNodup c'

theorem toQueue {e : Fin n} (home : cfg.cpu e = cfg.scCpu s) : Placed cfg { v with
      queue := Function.update v.queue e (v.queue e ++ [s])
      queued := Function.update v.queued s true } (Function.update loc s (.queue e)) := by
  have site := placed.site s
  rw [hand] at site
  have absent : ∀ e', s ∉ v.queue e' := fun e' => by simpa using site.queue e'
  refine placed.move ⟨?_, ?_, ?_, ?_, ?_, ?_, ?_, ?_, fun _ => site.bound nofun⟩ (fun x _ => ⟨Iff.rfl, Iff.rfl⟩)
    (fun x ne => ⟨fun _ _ => Iff.rfl, fun _ => Iff.rfl, fun e' => ?_, Function.update_of_ne ne ..⟩) (fun _ _ => Iff.rfl)
    placed.owner (fun c' _ => placed.born c') nofun ⟨placed.readyNodup, placed.releaseNodup, fun e' => ?_⟩
  · simpa using site.created
  · simpa using site.retired
  · simpa using site.ready
  · simpa using site.release
  · intro e'
    by_cases same : e' = e
    · subst same
      simp
    · simp [same, Ne.symm same, absent]
  · simp
  · simpa using site.current
  · rintro e' ⟨⟩
    exact home
  · by_cases same : e' = e
    · subst same
      simp [ne]
    · simp [same]
  · by_cases same : e' = e
    · subst same
      have apart : ∀ x ∈ v.queue e', x ≠ s := fun x member eq => absent _ (eq ▸ member)
      simpa [List.nodup_append] using ⟨placed.queueNodup e', apart⟩
    · simpa [same] using placed.queueNodup e'

theorem toRetired : Placed cfg { v with retired := s :: v.retired } (Function.update loc s .retired) := by
  have site := placed.site s
  rw [hand] at site
  refine placed.move ⟨?_, ?_, ?_, ?_, ?_, ?_, ?_, nofun, fun _ => site.bound nofun⟩ (fun x ne => ⟨Iff.rfl, by simp [ne]⟩)
    (fun x _ => ⟨fun _ _ => Iff.rfl, fun _ => Iff.rfl, fun _ => Iff.rfl, rfl⟩) (fun _ _ => Iff.rfl) placed.owner
    (fun c' _ => placed.born c') nofun ⟨placed.readyNodup, placed.releaseNodup, placed.queueNodup⟩
  · simpa using site.created
  · simp
  · simpa using site.ready
  · simpa using site.release
  · simpa using site.queue
  · simpa using site.queued
  · simpa using site.current

end Hand

/-- The first SC of a ready queue becomes the current one. -/
theorem dispatch (placed : Placed cfg v loc) {c : Fin k} {p s : Nat} {rest : List Nat} (head : v.ready c p = s :: rest)
    (stopped : v.holds c = false) :
    Placed cfg { v with
      ready := Function.update v.ready c (Function.update (v.ready c) p rest)
      queued := Function.update v.queued s false
      sc := Function.update v.sc c s
      holds := Function.update v.holds c true } (Function.update loc s .current) := by
  obtain ⟨is, home, prio⟩ := ((placed.site s).ready c p).mp (by simp [head])
  have site := placed.site s
  rw [is] at site
  have nodup := placed.readyNodup c p
  rw [head] at nodup
  obtain ⟨gone, nodup'⟩ := List.nodup_cons.mp nodup
  refine placed.move ⟨?_, ?_, ?_, ?_, ?_, ?_, ?_, nofun, fun _ => site.bound nofun⟩ (fun x _ => ⟨Iff.rfl, Iff.rfl⟩)
    (fun x ne => ⟨fun c' p' => ?_, fun _ => Iff.rfl, fun _ => Iff.rfl, Function.update_of_ne ne ..⟩) (fun x ne => ?_)
    (fun c' => ?_) (fun c' ne => ?_) nofun ⟨fun c' p' => ?_, placed.releaseNodup, placed.queueNodup⟩
  · simpa using site.created
  · simpa using site.retired
  · intro c' p'
    by_cases same : c' = c
    · subst same
      by_cases prio' : p' = p
      · subst prio'
        simpa using gone
      · have := site.ready c' p'
        simpa [prio', prio, Ne.symm prio', home] using this
    · have := site.ready c' p'
      simpa [same, home, Ne.symm same] using this
  · simpa using site.release
  · simpa using site.queue
  · simp
  · simp only [iff_true]
    exact ⟨c, by simp, by simp⟩
  · by_cases same : c' = c
    · subst same
      by_cases prio' : p' = p
      · subst prio'
        simp [head, ne]
      · simp [prio']
    · simp [same]
  · refine exists_congr fun c' => ?_
    by_cases same : c' = c
    · subst same
      simp [Ne.symm ne, stopped]
    · simp [same]
  · by_cases same : c' = c
    · subst same
      simpa using home
    · simpa [same] using placed.owner c'
  · by_cases same : c' = c
    · subst same
      simp at ne
    · simpa [same] using placed.born c'
  · by_cases same : c' = c
    · subst same
      by_cases prio' : p' = p
      · subst prio'
        simpa using nodup'
      · simpa [prio'] using placed.readyNodup c' p'
    · simpa [same] using placed.readyNodup c' p'

end Placed

/-- Every SC is at its place. -/
def Sited (cfg : Config n k) (v : Shelves n k) : Prop := ∃ loc, Placed cfg v loc ∧ ∀ s, loc s ≠ .hand

/-- Every SC is at its place, except for `s` which is in the hand. -/
def Holding (cfg : Config n k) (v : Shelves n k) (s : Nat) : Prop :=
  ∃ loc, Placed cfg v loc ∧ loc s = .hand ∧ ∀ x, x ≠ s → loc x ≠ .hand

section Hands

variable {cfg : Config n k} {v v' : Shelves n k} {s : Nat}

theorem Holding.put (holding : Holding cfg v s) {l : Loc n} (ne : l ≠ .hand)
    (placed : ∀ loc, Placed cfg v loc → loc s = .hand → Placed cfg v' (Function.update loc s l)) : Sited cfg v' := by
  obtain ⟨loc, before, hand, others⟩ := holding
  refine ⟨_, placed loc before hand, fun x => ?_⟩
  by_cases same : x = s
  · subst same
    rwa [Function.update_self]
  · rw [Function.update_of_ne same]
    exact others x same

theorem Sited.take (sited : Sited cfg v) (placed : ∀ loc, Placed cfg v loc → Placed cfg v' (Function.update loc s .hand)) :
    Holding cfg v' s := by
  obtain ⟨loc, before, none⟩ := sited
  refine ⟨_, placed loc before, Function.update_self .., fun x ne => ?_⟩
  rw [Function.update_of_ne ne]
  exact none x

theorem Holding.not_queued (holding : Holding cfg v s) : v.queued s = false := by
  obtain ⟨loc, placed, hand, -⟩ := holding
  exact placed.not_queued hand

theorem Sited.drop (sited : Sited cfg v) {c : Fin k} (holds : v.holds c = true) :
    Holding cfg { v with holds := Function.update v.holds c false } (v.sc c) :=
  sited.take fun _ placed => placed.drop holds

theorem Sited.not_queued (sited : Sited cfg v) {c : Fin k} (holds : v.holds c = true) : v.queued (v.sc c) = false := by
  obtain ⟨loc, placed, -⟩ := sited
  exact placed.current_not_queued holds

theorem Sited.owner (sited : Sited cfg v) (c : Fin k) : cfg.scCpu (v.sc c) = c := by
  obtain ⟨loc, placed, -⟩ := sited
  exact placed.owner c

/-- No SC is bound to a local EC. -/
theorem Sited.bound (sited : Sited cfg v) (created : s ∈ v.created) : cfg.subtype (cfg.ec s) ≠ .ecLocal := by
  obtain ⟨loc, placed, -⟩ := sited
  exact (placed.site s).bound ((placed.site s).created.mp created)

theorem Sited.current_created (sited : Sited cfg v) (c : Fin k) : v.sc c ∈ v.created := by
  obtain ⟨loc, placed, -⟩ := sited
  exact (placed.site _).created.mpr (placed.born c)

/-- A CPU that runs its SC does not find it in a queue. -/
theorem Sited.queue_ne (sited : Sited cfg v) {c : Fin k} (holds : v.holds c = true) {e : Fin n} (member : s ∈ v.queue e) :
    v.sc c ≠ s := by
  obtain ⟨loc, placed, -⟩ := sited
  rintro rfl
  have queued := ((placed.site _).queue e).mp member
  rw [placed.current_loc holds] at queued
  cases queued

theorem Sited.release_ne (sited : Sited cfg v) {c : Fin k} (holds : v.holds c = true) (member : s ∈ v.release c) :
    v.sc c ≠ s := by
  obtain ⟨loc, placed, -⟩ := sited
  rintro rfl
  have released := (((placed.site _).release c).mp member).1
  rw [placed.current_loc holds] at released
  cases released

theorem Sited.ready_prio (sited : Sited cfg v) {c : Fin k} {p : Nat} (member : s ∈ v.ready c p) : cfg.prio s = p := by
  obtain ⟨loc, placed, -⟩ := sited
  exact (((placed.site s).ready c p).mp member).2.2

theorem Sited.ready_created (sited : Sited cfg v) {c : Fin k} {p : Nat} (member : s ∈ v.ready c p) : s ∈ v.created := by
  obtain ⟨loc, placed, -⟩ := sited
  refine (placed.site s).created.mpr ?_
  rw [(((placed.site s).ready c p).mp member).1]
  nofun

end Hands

/-! ## The operations -/

/-- The faults of the queues of SCs and ECs -/
def Fault.Places : Fault → Prop
  | .queued | .wrongCpu | .schedule => True
  | _ => False

/-- Every SC of the result is at its place, or another assertion failed. -/
abbrev KeepsPlaces (cfg : Config n k) (r : Result n k) : Prop :=
  Meets (fun f => ¬ f.Places) (fun m => Sited cfg m.shelves) r

namespace Machine

variable {cfg : Config n k} {m : Machine n k} {c : Fin k}

/-- `Ready::enqueue` for an SC that is in no queue -/
theorem shelves_putReady (m : Machine n k) (c : Fin k) (s t : Nat) :
    ∃ q, q.Perm (s :: m.shelves.ready c (cfg.prio s)) ∧ (m.putReady cfg c s t).shelves = { m.shelves with
      ready := Function.update m.shelves.ready c (Function.update (m.shelves.ready c) (cfg.prio s) q)
      queued := Function.update m.shelves.queued s true } := by
  refine ⟨if (m.sc s).left ≠ 0 then s :: m.shelves.ready c (cfg.prio s) else m.shelves.ready c (cfg.prio s) ++ [s], ?_, ?_⟩
  · split
    · exact List.Perm.refl _
    · exact List.perm_append_singleton s _
  · rw [putReady, shelves_setSc, shelves_setCpu, update_release, update_scOf, update_holds]
    rfl

theorem readyEnqueue_eq {s : Nat} (holding : Holding cfg m.shelves s) (home : cfg.scCpu s = c) (t : Nat) :
    m.readyEnqueue cfg c s t = .ok (m.putReady cfg c s t) := by
  unfold readyEnqueue
  rw [if_neg (not_not.mpr home), if_neg (by simpa [shelves] using holding.not_queued)]

theorem sited_putReady {s : Nat} (holding : Holding cfg m.shelves s) (home : cfg.scCpu s = c) (t : Nat) :
    Sited cfg (m.putReady cfg c s t).shelves := by
  obtain ⟨q, perm, after⟩ := @shelves_putReady _ _ cfg m c s t
  rw [after]
  exact holding.put (l := .ready) nofun fun _ placed hand => placed.toReady hand home perm

@[simp] theorem pc_putReady (m : Machine n k) (c x : Fin k) (s t : Nat) :
    ((m.putReady cfg c s t).cpu x).pc = (m.cpu x).pc := by
  by_cases same : x = c
  · subst same
    simp [putReady]
  · simp [putReady, same]

@[simp] theorem pc_putRelease (m : Machine n k) (x : Fin k) (s : Nat) : ((m.putRelease cfg s).cpu x).pc = (m.cpu x).pc := by
  by_cases same : x = cfg.scCpu s
  · subst same
    simp [putRelease]
  · simp [putRelease, same]

theorem sited_putRelease {s : Nat} (holding : Holding cfg m.shelves s) : Sited cfg (m.putRelease cfg s).shelves := by
  rw [putRelease, shelves_setSc, shelves_setCpu, update_ready, update_scOf, update_holds]
  exact holding.put (l := .release) (by rintro ⟨⟩) fun _ placed hand => placed.toRelease hand

theorem unblock_eq {s : Nat} (holding : Holding cfg m.shelves s) (c : Fin k) : m.unblock cfg c s =
    .ok (if cfg.scCpu s = c then m.putReady cfg c s m.now else m.putRelease cfg s) := by
  unfold unblock
  split
  · rename_i home
    exact readyEnqueue_eq holding home m.now
  · unfold releaseEnqueue
    rw [if_neg (by simpa [shelves] using holding.not_queued)]

theorem keeps_unblock {s : Nat} (holding : Holding cfg m.shelves s) (c : Fin k) : KeepsPlaces cfg (m.unblock cfg c s) := by
  rw [unblock_eq holding c]
  show Sited cfg (Machine.shelves _)
  split
  · rename_i home
    exact sited_putReady holding home m.now
  · exact sited_putRelease holding

/-- The steps that leave every SC where it is -/
theorem sited_goto (sited : Sited cfg m.shelves) {p : Pc n} (same : p.holds = (m.cpu c).pc.holds) :
    Sited cfg (m.goto c p).shelves := by
  rw [shelves_goto_of m same]
  exact sited

theorem places_makeCurrent (sited : Sited cfg m.shelves) (holds : (m.cpu c).pc.holds = true) (e : Fin n) :
    KeepsPlaces cfg (m.makeCurrent c e) := by
  unfold makeCurrent
  split
  · exact id
  · show Sited cfg (m.setCpu c _).shelves
    rw [shelves_setCpu, update_ready, update_release, update_scOf]
    show Sited cfg { m.shelves with holds := Function.update m.shelves.holds c true }
    rw [← holds, update_holds]
    exact sited

theorem places_rendezvous (sited : Sited cfg m.shelves) (holds : (m.cpu c).pc.holds = true) (i : Ipc) (t : Fin n) :
    KeepsPlaces cfg (m.rendezvous c i t) := by
  unfold rendezvous setPartner
  refine places_makeCurrent ?_ (by simpa using holds) t
  rw [shelves_setEc, update_queueSc, shelves_setCpu, update_ready, update_release, update_scOf, update_holds, shelves_setEc,
    update_queueSc, shelves_setEc, update_queueSc, shelves_setEc, update_queueSc]
  exact sited

theorem places_activate (sited : Sited cfg m.shelves) (holds : (m.cpu c).pc.holds = true) (e : Fin n) (a : After) :
    KeepsPlaces cfg (m.activate c e a) := by
  unfold activate
  split
  · exact id
  · dsimp only
    generalize made : (m.setCpu c _) = m₁
    have same : m₁.shelves = m.shelves := by
      rw [← made, shelves_setCpu, update_ready, update_release, update_scOf, update_holds]
    have pc : (m₁.cpu c).pc.holds = true := by
      rw [← made]
      simpa using holds
    split
    · refine sited_goto ?_ pc.symm
      rw [same]
      exact sited
    · refine places_makeCurrent ?_ pc _
      rw [same]
      exact sited

theorem places_reply (sited : Sited cfg m.shelves) (holds : (m.cpu c).pc.holds = true) (f : Option Cont) :
    KeepsPlaces cfg (m.reply cfg c f) := by
  unfold reply
  dsimp only
  generalize made : (m.setEc (m.self c) _) = m₁
  have same : m₁.shelves = m.shelves := by
    rw [← made, shelves_setEc, update_queueSc]
  have pc : (m₁.cpu c).pc.holds = true := by
    rw [← made]
    exact holds
  rw [← same] at sited
  split
  · show Sited cfg (Machine.shelves _)
    rw [shelves_goto]
    exact (sited.drop pc).put (l := .retired) nofun fun _ placed hand => placed.toRetired hand
  · split
    · exact id
    · unfold clrPartner
      cases (m₁.ec _).callee with
      | none => exact id
      | some e =>
          dsimp only
          generalize cleared : (((m₁.setEc e _).setEc _ _).setCpu c _) = m₂
          have same₂ : m₂.shelves = m₁.shelves := by
            rw [← cleared, shelves_setCpu, update_ready, update_release, update_scOf, update_holds, shelves_setEc,
              update_queueSc, shelves_setEc, update_queueSc]
          have pc₂ : (m₂.cpu c).pc.holds = true := by
            rw [← cleared]
            simpa using pc
          rw [← same₂] at sited
          cases decide ((m₁.cpu c).donations ≠ 0) with
          | true => exact places_makeCurrent sited pc₂ _
          | false => exact sited_goto sited pc₂.symm

theorem places_kill (sited : Sited cfg m.shelves) (holds : (m.cpu c).pc.holds = true) : KeepsPlaces cfg (m.kill cfg c) := by
  unfold kill
  split
  · exact places_reply sited holds _
  · refine places_reply (m := m.setEc _ _) ?_ holds _
    rw [shelves_setEc, update_queueSc]
    exact sited

theorem places_sysIpcReply (sited : Sited cfg m.shelves) (holds : (m.cpu c).pc.holds = true) :
    KeepsPlaces cfg (m.sysIpcReply cfg c) := by
  unfold sysIpcReply
  split
  · exact places_reply sited holds _
  · split
    · exact places_reply sited holds _
    · exact id

theorem sited_refuse (sited : Sited cfg m.shelves) (holds : (m.cpu c).pc.holds = true) (i : Ipc) (s : Status) :
    Sited cfg (m.refuse c i s).shelves := by
  cases i with
  | call => exact sited_goto sited holds.symm
  | msg x => exact sited_goto sited holds.symm

theorem places_ipc (sited : Sited cfg m.shelves) (holds : (m.cpu c).pc.holds = true) (i : Ipc) (pt : Option (Fin n))
    (noWait : Bool) : KeepsPlaces cfg (m.ipc cfg c i pt noWait) := by
  unfold ipc
  split
  · exact sited_refuse sited holds i _
  · split
    · exact sited_refuse sited holds i _
    · split
      · exact sited_refuse sited holds i _
      · split
        · exact places_rendezvous sited holds i _
        · split
          · exact sited_goto sited holds.symm
          · split
            · exact sited_refuse sited holds i _
            · refine sited_goto ?_ holds.symm
              rw [shelves_setEc, update_queueSc]
              exact sited

theorem places_recv (sited : Sited cfg m.shelves) (holds : (m.cpu c).pc.holds = true) (f : Cont) :
    KeepsPlaces cfg (m.recv cfg c f) := by
  unfold recv
  dsimp only
  split
  · exact id
  · split
    · split
      · exact sited_goto sited holds.symm
      · split
        · exact sited_goto sited holds.symm
        · exact id
      · exact id
    · exact id

theorem sited_finish (sited : Sited cfg m.shelves) (holds : (m.cpu c).pc.holds = true) (s : Status) :
    Sited cfg (m.finish c s).shelves := by
  unfold finish
  dsimp only
  split
  · refine sited_goto ?_ holds.symm
    rw [shelves_setEc, update_queueSc, shelves_setSm]
    exact sited
  · exact sited_goto sited holds.symm

theorem places_start (sited : Sited cfg m.shelves) (holds : (m.cpu c).pc.holds = true) (f : Cont) :
    KeepsPlaces cfg (m.start cfg c f) := by
  cases f with
  | recvKern => exact places_recv sited holds _
  | recvUser => exact places_recv sited holds _
  | sysFinish s clr =>
      refine sited_goto ?_ ?_
      · split
        · rw [shelves_setEc, update_queueSc]
          exact sited
        · exact sited
      · split
        · exact holds.symm
        · exact holds.symm
  | idle =>
      refine sited_goto sited ?_
      split
      · exact holds.symm
      · exact holds.symm
  | retUser r => exact sited_goto sited holds.symm
  | sendMsg x => exact sited_goto sited holds.symm
  | sysIpcCall => exact sited_goto sited holds.symm
  | dead => exact sited_goto sited holds.symm
  | blocking => exact sited_goto sited holds.symm

theorem places_schedule (sited : Sited cfg m.shelves) {b : Bool} (pc : (m.cpu c).pc = .schedule b) :
    KeepsPlaces cfg (m.schedule cfg c b) := by
  have free : b = false → (m.sc (m.cpu c).sc).queued = false := by
    rintro rfl
    exact sited.not_queued (c := c) (by simp [shelves, pc, Pc.holds])
  unfold schedule
  dsimp only
  split
  · rename_i bad
    cases b with
    | true => simp at bad
    | false => simp [free rfl] at bad
  · generalize made : ((m.setSc (m.cpu c).sc _).setCpu c _) = m₁
    have same : m₁.shelves = m.shelves := by
      rw [← made, shelves_setCpu, update_ready, update_release, update_scOf, update_holds, shelves_setSc, update_queuedSc]
    have pc₁ : (m₁.cpu c).pc = .schedule b := by
      rw [← made]
      simpa using pc
    have sc₁ : (m₁.cpu c).sc = (m.cpu c).sc := by
      rw [← made]
      simp
    rw [← same] at sited
    cases b with
    | true =>
        refine sited_goto sited ?_
        rw [pc₁]
        rfl
    | false =>
        have run : m₁.shelves.holds c = true := by simp [shelves, pc₁, Pc.holds]
        have home : cfg.scCpu (m.cpu c).sc = c := sc₁ ▸ sited.owner c
        have unqueued : (m₁.sc (m.cpu c).sc).queued = false := sc₁ ▸ sited.not_queued run
        have put : m₁.readyEnqueue cfg c (m.cpu c).sc m.now = .ok (m₁.putReady cfg c (m.cpu c).sc m.now) := by
          unfold readyEnqueue
          rw [if_neg (not_not.mpr home), if_neg (by simp [unqueued])]
        obtain ⟨q, perm, after⟩ := @shelves_putReady _ _ cfg m₁ c (m.cpu c).sc m.now
        rw [if_neg Bool.false_ne_true, put]
        show Sited cfg (Machine.shelves _)
        rw [shelves_goto, after]
        have dropped := sited.drop run
        rw [show m₁.shelves.sc c = (m.cpu c).sc from sc₁] at dropped
        exact dropped.put (l := .ready) nofun fun _ placed hand => placed.toReady hand home perm

theorem places_dispatch (sited : Sited cfg m.shelves) {t : Nat} (pc : (m.cpu c).pc = .loop t) :
    KeepsPlaces cfg (m.dispatch cfg c t) := by
  obtain ⟨loc, placed, none⟩ := sited
  unfold dispatch
  dsimp only
  split
  · exact id
  · rename_i s rest head
    have home := (((placed.site s).ready c (m.cpu c).prioTop).mp (by simp [shelves, head])).2.1
    rw [if_neg (not_not.mpr home)]
    split
    · exact id
    · refine ⟨Function.update loc s .current, ?_, fun x => ?_⟩
      · rw [shelves_setCpu, update_release, shelves_setSc]
        exact placed.dispatch head (by simp [shelves, pc, Pc.holds])
      · by_cases same : x = s
        · subst same
          simp
        · simpa [same] using none x

theorem sited_after (sited : Sited cfg { m.shelves with holds := Function.update m.shelves.holds c false }) (a : After) :
    Sited cfg (m.after c a).shelves := by
  cases a with
  | schedule =>
      rw [after, shelves_goto]
      exact sited
  | loop t =>
      rw [after, shelves_setCpu, update_ready, update_release, update_scOf]
      exact sited

/-- The current SC waits for an EC of its CPU. -/
theorem enqueueSc_eq (sited : Sited cfg m.shelves) (holds : (m.cpu c).pc.holds = true) (e : Fin n) :
    m.enqueueSc c e = .ok (m.putQueue e (m.cpu c).sc) := by
  unfold enqueueSc
  rw [if_neg]
  have : (m.sc (m.cpu c).sc).queued = false := sited.not_queued (c := c) holds
  simp [this]

theorem sited_putQueue (sited : Sited cfg m.shelves) (holds : (m.cpu c).pc.holds = true) {e : Fin n} (home : cfg.cpu e = c) :
    Sited cfg { (m.putQueue e (m.cpu c).sc).shelves with holds := Function.update m.shelves.holds c false } := by
  rw [putQueue, shelves_setSc, shelves_setEc]
  have owner : cfg.scCpu (m.cpu c).sc = c := sited.owner c
  exact (sited.drop (c := c) holds).put (l := .queue e) (by rintro ⟨⟩) fun _ placed hand => placed.toQueue hand (home.trans owner.symm)

theorem places_blockSc (sited : Sited cfg m.shelves) (holds : (m.cpu c).pc.holds = true) {e : Fin n} (home : cfg.cpu e = c)
    (a : After) : KeepsPlaces cfg (m.blockSc c e a) := by
  unfold blockSc
  split
  · rw [enqueueSc_eq sited holds e]
    exact sited_after (sited_putQueue sited holds home) a
  · exact places_makeCurrent sited holds e

theorem places_wake (sited : Sited cfg m.shelves) (e : Fin n) {back : Back n} (pc : (m.cpu c).pc = .wake e back) :
    KeepsPlaces cfg (m.wake cfg c e back) := by
  unfold wake
  split
  · refine sited_goto sited ?_
    rw [pc]
    cases back <;> rfl
  · rename_i s rest head
    refine keeps_unblock ?_ c
    rw [shelves_setSc, shelves_setEc]
    exact sited.take fun _ placed => placed.takeQueue head

theorem places_requeue (sited : Sited cfg m.shelves) {t : Nat} {back : Back n} (pc : (m.cpu c).pc = .requeue t back) :
    KeepsPlaces cfg (m.requeue cfg c t back) := by
  unfold requeue
  split
  · refine sited_goto sited ?_
    rw [pc]
    cases back <;> rfl
  · rename_i s rest head
    obtain ⟨loc, placed, none⟩ := sited
    have home := (((placed.site s).release c).mp (by simp [shelves, head])).2
    generalize made : ((m.setCpu c _).setSc s _) = m₁
    have holding : Holding cfg m₁.shelves s := by
      rw [← made, shelves_setSc, shelves_setCpu, update_ready, update_scOf, update_holds]
      exact Sited.take ⟨loc, placed, none⟩ fun _ placed => placed.takeRelease head
    rw [readyEnqueue_eq holding home t]
    exact sited_putReady holding home t

theorem holding_create (sited : Sited cfg m.shelves) {s : Nat} (new : s ∉ m.created)
    (bound : cfg.subtype (cfg.ec s) ≠ .ecLocal) : Holding cfg { m with created := s :: m.created }.shelves s :=
  sited.take fun _ placed => placed.create new bound

theorem places_sysCreateSc (sited : Sited cfg m.shelves) (holds : (m.cpu c).pc.holds = true) (s : Nat) :
    KeepsPlaces cfg (m.sysCreateSc cfg c s) := by
  unfold sysCreateSc
  split
  · exact sited
  · rename_i new
    split
    · exact sited_goto sited holds.symm
    · split
      · exact sited_goto sited holds.symm
      · rename_i bound
        have holding := holding_create sited new bound
        have kept := keeps_unblock holding c
        rw [unblock_eq holding c] at kept ⊢
        refine sited_goto kept ?_
        split
        · rw [pc_putReady]
          exact holds.symm
        · rw [pc_putRelease]
          exact holds.symm

theorem places_createRoot (sited : Sited cfg m.shelves) (s : Nat) : KeepsPlaces cfg (m.createRoot cfg c s) := by
  unfold createRoot
  split
  · exact sited
  · rename_i checks
    simp only [not_or] at checks
    exact keeps_unblock (holding_create sited checks.1 checks.2.2.1) c

theorem places_dn (sited : Sited cfg m.shelves) (holds : (m.cpu c).pc.holds = true) (idle : (m.ec (m.self c)).queued = false)
    (i : Nat) (zero timed : Bool) : KeepsPlaces cfg (m.dn c i zero timed) := by
  unfold dn
  dsimp only
  split
  · refine sited_goto ?_ holds.symm
    rw [shelves_setEc, update_queueSc, shelves_setSm]
    exact sited
  · rw [if_neg (by simp [idle])]
    refine sited_goto ?_ holds.symm
    rw [shelves_setEc, update_queueSc, shelves_setSm]
    exact sited

theorem places_dnBlock (sited : Sited cfg m.shelves) (holds : (m.cpu c).pc.holds = true)
    (home : cfg.cpu (m.self c) = c) (i : Nat) (timed : Bool) : KeepsPlaces cfg (m.dnBlock c i timed) := by
  unfold dnBlock
  dsimp only
  split
  · rw [enqueueSc_eq sited holds]
    have put := sited_putQueue sited holds home
    dsimp only
    split
    · split
      · exact id
      · show Sited cfg (Machine.shelves _)
        rw [shelves_goto, shelves_setEc, update_queueSc]
        exact put
    · show Sited cfg (Machine.shelves _)
      rw [shelves_goto]
      exact put
  · exact sited_goto sited holds.symm

theorem holds_back (back : Back n) : back.pc.holds = true := by
  cases back <;> rfl

theorem sited_up (sited : Sited cfg m.shelves) (holds : (m.cpu c).pc.holds = true) (i : Nat) (fail back : Back n) :
    Sited cfg (m.up c i fail back).shelves := by
  unfold up
  split
  · split
    · exact sited_goto sited ((holds_back fail).trans holds.symm)
    · refine sited_goto ?_ ((holds_back back).trans holds.symm)
      rw [shelves_setSm]
      exact sited
  · refine sited_goto ?_ holds.symm
    rw [shelves_setEc, update_queueSc, shelves_setSm]
    exact sited

theorem places_timeout (sited : Sited cfg m.shelves) (holds : (m.cpu c).pc.holds = true) (e : Fin n) (back : Back n) :
    KeepsPlaces cfg (m.timeout cfg c e back) := by
  have same : (m.setEc e fun x => { x with timeout := none }).shelves = m.shelves := by
    rw [shelves_setEc, update_queueSc]
  unfold timeout
  split
  · exact sited
  · split
    · exact sited
    · dsimp only
      split
      · refine sited_goto ?_ ((holds_back back).trans holds.symm)
        rw [same]
        exact sited
      · split
        · refine sited_goto ?_ holds.symm
          rw [shelves_setEc, update_queueSc, shelves_setSm, same]
          exact sited
        · exact id

/-! ## Steps and runs -/

theorem places_go (graph : Graph cfg m.view) (sited : Sited cfg m.shelves) : KeepsPlaces cfg (m.go cfg c) := by
  have stands := graph.pc c
  rw [show m.view.pc c = (m.cpu c).pc from rfl] at stands
  unfold go
  dsimp only
  split
  · rename_i pc
    exact sited_goto sited (by rw [pc]; rfl)
  · exact sited
  · rename_i pc
    exact sited_goto sited (by rw [pc]; rfl)
  · rename_i f pc
    exact places_start sited (by rw [pc]; rfl) f
  · rename_i s pc
    exact sited_finish sited (by rw [pc]; rfl) s
  · rename_i r pc
    refine sited_goto sited ?_
    rw [pc]
    split <;> rfl
  · rename_i f pc
    show Sited cfg (Machine.shelves _)
    split
    · refine sited_goto ?_ (by simp [pc, Pc.holds])
      rw [shelves_setEc, update_queueSc]
      exact sited
    · refine sited_goto sited ?_
      rw [pc]
      cases f <;> rfl
  · exact sited
  · rename_i t pc
    refine sited_goto sited ?_
    rw [pc]
    split <;> rfl
  · rename_i pc
    exact sited_goto sited (by rw [pc]; rfl)
  · rename_i pc
    exact places_kill sited (by rw [pc]; rfl)
  · rename_i b pc
    exact places_schedule sited pc
  · rename_i t pc
    exact places_dispatch sited pc
  · rename_i e a pc
    exact places_activate sited (by rw [pc]; rfl) e a
  · rename_i e a i pc
    rw [pc] at stands
    exact places_blockSc sited (by rw [pc]; rfl) stands.1 a
  · rename_i i timed episode pc
    exact places_dnBlock sited (by rw [pc]; rfl) (graph.home c) i timed
  · rename_i e back pc
    exact places_wake sited e pc
  · rename_i t back pc
    exact places_requeue sited pc

theorem places_hypercall (graph : Graph cfg m.view) (sited : Sited cfg m.shelves) (h : Hypercall) :
    KeepsPlaces cfg (m.hypercall cfg c h) := by
  unfold hypercall
  split
  · rename_i guard
    have holds : (m.cpu c).pc.holds = true := by rw [guard.1]; rfl
    cases h with
    | ipcCall => exact sited_goto sited holds.symm
    | ipcReply => exact places_sysIpcReply sited holds
    | createSc s => exact places_sysCreateSc sited holds s
    | dn i zero timed =>
        refine places_dn sited holds ?_ i zero timed
        have active : m.view.Active c := by
          have stands := graph.pc c
          rw [show m.view.pc c = .user from guard.1] at stands
          exact stands
        have := (graph.flag (m.self c)).not.mpr (cont_of_active active).1
        simpa [view] using this
    | up i => exact sited_up sited holds i _ _
    | ctrlEc => exact sited_goto sited holds.symm
    | other s => exact sited_goto sited holds.symm
  · exact sited

theorem holds_of_resume {p : Pc n} {x : Msg} {back : Back n} (enabled : p.resume x = some back) : p.holds = true := by
  cases p with
  | schedule b => cases enabled
  | loop t => cases enabled
  | _ => rfl

theorem places_irq (sited : Sited cfg m.shelves) (i : Irq n) (x : Msg) : KeepsPlaces cfg (m.irq cfg c i x) := by
  unfold irq
  split
  · exact sited
  · rename_i back enabled
    have holds := holds_of_resume enabled
    have resumed : ∀ f : Cpu n → Cpu n, (f (m.cpu c)).ready = (m.cpu c).ready → (f (m.cpu c)).release = (m.cpu c).release →
        (f (m.cpu c)).sc = (m.cpu c).sc → (f (m.cpu c)).pc = back.pc → Sited cfg (m.setCpu c f).shelves := by
      intro f ready release sc pc
      rw [shelves_setCpu, ready, release, sc, pc, update_ready, update_release, update_scOf, holds_back, ← holds,
        update_holds]
      exact sited
    cases i with
    | rrq => exact sited_goto sited holds.symm
    | rke => exact resumed _ rfl rfl rfl rfl
    | budget =>
        show Sited cfg (Machine.shelves _)
        split
        · exact resumed _ rfl rfl rfl rfl
        · exact sited
    | timeout e => exact places_timeout sited holds e back
    | gsi j => exact sited_up sited holds j back back

/-- **Every step leaves each SC at exactly one place.** -/
theorem step_places (graph : Graph cfg m.view) (sited : Sited cfg m.shelves) (event : Event n) :
    KeepsPlaces cfg (m.step cfg c event) := by
  unfold step
  split
  · exact sited
  · exact places_go graph sited
  · rename_i i pc
    exact places_ipc sited (by rw [pc]; rfl) i _ _
  · exact places_createRoot sited _
  · exact places_hypercall graph sited _
  · rename_i pc
    exact sited_goto sited (by rw [pc]; rfl)
  · rename_i pc
    exact sited_goto sited (by rw [pc]; rfl)
  · rename_i pc
    exact sited_goto sited (by rw [pc]; rfl)
  · exact places_irq sited _ _
  · rename_i r pc
    exact sited_goto sited (by rw [pc]; rfl)
  · rename_i f pc
    refine sited_goto ?_ (by simp [pc, Pc.holds])
    rw [shelves_setEc, update_queueSc]
    exact sited
  · rename_i r pc
    show Sited cfg (Machine.shelves _)
    split
    · exact sited
    · exact sited_goto sited (by rw [pc]; rfl)
  · rename_i r pc
    show Sited cfg (Machine.shelves _)
    split
    · exact sited
    · exact sited_goto sited (by rw [pc]; rfl)
  · exact sited

theorem sited_init (cfg : Config n k) (root : Option (Fin n)) (vm : Msg) (count : Nat → Nat) :
    Sited cfg (init cfg root vm count).shelves := by
  have idle : ∀ s, s ∈ (List.finRange k).map cfg.idleSc ↔ ∃ c, cfg.idleSc c = s := by simp
  have home : ∀ c, cfg.scCpu (cfg.idleSc c) = c := by
    intro c
    rw [Config.scCpu, cfg.idle_ec, cfg.idle_cpu]
  refine ⟨fun s => if s ∈ (List.finRange k).map cfg.idleSc then .current else .unborn, ⟨fun s => ?_, home, ?_, ?_, ?_, ?_⟩, ?_⟩
  · by_cases born : s ∈ (List.finRange k).map cfg.idleSc
    · have born' := born
      obtain ⟨c, rfl⟩ := (idle s).mp born
      rw [if_pos born']
      refine ⟨by simp [init, shelves], by simp [init, shelves], by simp [init, shelves],
        by simp [init, shelves], by simp [init, shelves], by simp [init, shelves], ?_, nofun, fun _ => ?_⟩
      · exact ⟨fun _ => rfl, fun _ => ⟨c, rfl, rfl⟩⟩
      · rw [cfg.idle_ec, cfg.idle_subtype]
        nofun
    · rw [if_neg born]
      refine ⟨by simpa [init, shelves] using born, by simp [init, shelves], by simp [init, shelves],
        by simp [init, shelves], by simp [init, shelves], by simp [init, shelves], ?_, nofun, fun ne => absurd rfl ne⟩
      refine ⟨fun ⟨c, same, _⟩ => ?_, nofun⟩
      exact absurd ((idle s).mpr ⟨c, same⟩) born
  · intro c
    simp [init, shelves]
  · exact fun c p => List.nodup_nil
  · exact fun c => List.nodup_nil
  · exact fun e => List.nodup_nil
  · intro s
    dsimp only
    split <;> nofun

end Machine

end Nova.Kernel.Contexts
