/-
# Nova.Kernel.Semaphore — downs, ups and timeouts

`Waits` is the invariant of the semaphores and of the ECs that wait for them: tokens and
waiters exclude each other, waiters stand in the order of their tickets, an EC is in its
last episode exactly while it blocks, and a timeout that is set belongs to the episode for
which it was set.  `Quiet` says that the EC that a CPU executes has neither a timeout nor a
token; the places where it still has one are those between its release and the end of its
hypercall.

`Ledger` counts the tokens.
-/
import Mathlib.Data.Finset.Card
import Mathlib.Data.Fintype.Basic
import Nova.Kernel.Moves

namespace Nova.Kernel.Contexts

open Nova.Theory.Chains
open Nova.Theory.Runs

set_option autoImplicit false

variable {n k : Nat}

/-- What an EC has to do with semaphores and timeouts -/
structure Waiter where
  blocks : Nat
  unblocks : Nat
  ticket : Nat
  token : Option Nat
  timeout : Option Nat
  armed : Nat

namespace Ec

def waiter (e : Ec n) : Waiter where
  blocks := e.blocks
  unblocks := e.unblocks
  ticket := e.ticket
  token := e.token
  timeout := e.timeout
  armed := e.armed

/-- The EC has no timeout and no token. -/
def Clean (e : Ec n) : Prop := e.timeout = none ∧ e.token = none

/-- What holds of the current EC at each place -/
def Quiet (e : Ec n) : Pc n → Prop
  | .schedule _ | .loop _ | .activate _ _ | .blockSc _ _ _ => True
  | .run f => f ≠ .sysFinish .success true → e.Clean
  | .finish s => e.timeout = none ∧ (s ≠ .success → e.token = none)
  | .dnBlock _ _ _ => e.timeout = none ∧ (e.cont = some .blocking → e.token = none)
  | _ => e.Clean

variable {e e' : Ec n} {p : Pc n}

theorem Clean.quiet (clean : e.Clean) : e.Quiet p := by
  cases p with
  | run f => exact fun _ => clean
  | finish s => exact ⟨clean.1, fun _ => clean.2⟩
  | dnBlock i timed episode => exact ⟨clean.1, fun _ => clean.2⟩
  | schedule b => trivial
  | loop t => trivial
  | activate f a => trivial
  | blockSc f a i => trivial
  | _ => exact clean

theorem Clean.of_eq (clean : e.Clean) (same : e'.waiter = e.waiter) : e'.Clean :=
  ⟨(congrArg Waiter.timeout same).trans clean.1, (congrArg Waiter.token same).trans clean.2⟩

theorem Quiet.of_eq (quiet : e.Quiet p) (same : e'.waiter = e.waiter) (cont : e'.cont = e.cont ∨ e.Clean) :
    e'.Quiet p := by
  have timeout : e'.timeout = e.timeout := congrArg Waiter.timeout same
  have token : e'.token = e.token := congrArg Waiter.token same
  rcases cont with cont | clean
  · cases p with
    | run f => exact fun ne => (quiet ne).of_eq same
    | finish s => exact ⟨timeout.trans quiet.1, fun ne => token.trans (quiet.2 ne)⟩
    | dnBlock i timed episode => exact ⟨timeout.trans quiet.1, fun is => token.trans (quiet.2 (cont.symm.trans is))⟩
    | schedule b => trivial
    | loop t => trivial
    | activate f a => trivial
    | blockSc f a i => trivial
    | _ => exact quiet.of_eq same
  · exact (clean.of_eq same).quiet

end Ec

/-- Both are not set at these places. -/
def Pc.settled : Pc n → Bool
  | .schedule _ | .loop _ | .activate _ _ | .blockSc _ _ _ | .run _ | .finish _ | .dnBlock _ _ _ => false
  | _ => true

theorem Ec.Quiet.clean {e : Ec n} {p : Pc n} (quiet : e.Quiet p) (settled : p.settled = true) : e.Clean := by
  cases p with
  | run f => cases settled
  | finish s => cases settled
  | dnBlock i timed episode => cases settled
  | schedule b => cases settled
  | loop t => cases settled
  | activate f a => cases settled
  | blockSc f a i => cases settled
  | _ => exact quiet

namespace Machine

variable (cfg : Config n k) (m : Machine n k)

structure Waits : Prop where
  empty : ∀ i, (m.sm i).counter ≠ 0 → (m.sm i).queue = []
  limit : ∀ i, (m.sm i).counter < 2 ^ 64
  order : ∀ i, (m.sm i).queue.Pairwise fun a b => (m.ec a).ticket < (m.ec b).ticket
  tickets : ∀ i, ∀ e ∈ (m.sm i).queue, (m.ec e).ticket < (m.sm i).arrivals
  episodes : ∀ e, (m.ec e).blocks = (m.ec e).unblocks + if (m.ec e).cont = some .blocking then 1 else 0
  timeouts : ∀ e i, (m.ec e).timeout = some i →
    (m.ec e).armed = (m.ec e).blocks ∧ (e ∈ (m.sm i).queue ∨ (m.ec e).cont = some (.sysFinish .success true))
  tokens : ∀ e i, (m.ec e).token = some i →
    (m.ec e).cont = some (.sysFinish .success true) ∨ ∃ c, m.self c = e ∧ (m.cpu c).pc = .finish .success
  quiet : ∀ c, (m.ec (m.self c)).Quiet (m.cpu c).pc
  boot : ∀ c, (m.cpu c).pc = .boot → m.self c = cfg.idleEc c
  dn : ∀ c i timed episode, (m.cpu c).pc = .dnBlock i timed episode →
    (m.ec (m.self c)).blocks = episode ∧ ((m.ec (m.self c)).cont = some .blocking → m.self c ∈ (m.sm i).queue)

variable {cfg m} {m' : Machine n k} {c : Fin k}

namespace Waits

theorem of_eq (waits : Waits cfg m) (ec : m'.ec = m.ec) (sm : m'.sm = m.sm) (cpu : m'.cpu = m.cpu) : Waits cfg m' := by
  refine ⟨?_, ?_, ?_, ?_, ?_, ?_, ?_, ?_, ?_, ?_⟩
  · simpa only [sm] using waits.empty
  · simpa only [sm] using waits.limit
  · simpa only [sm, ec] using waits.order
  · simpa only [sm, ec] using waits.tickets
  · simpa only [ec] using waits.episodes
  · simpa only [sm, ec] using waits.timeouts
  · simpa only [self, cpu, ec] using waits.tokens
  · simpa only [self, cpu, ec] using waits.quiet
  · simpa only [self, cpu] using waits.boot
  · simpa only [self, cpu, ec, sm] using waits.dn

/-- A step that changes no wait queue and starts or ends no episode -/
theorem change (waits : Waits cfg m)
    (queue : ∀ i, (m'.sm i).queue = (m.sm i).queue ∧ (m'.sm i).arrivals = (m.sm i).arrivals)
    (counter : ∀ i, ((m'.sm i).counter ≠ 0 → (m.sm i).queue = []) ∧ (m'.sm i).counter < 2 ^ 64)
    (counts : ∀ e, (m'.ec e).blocks = (m.ec e).blocks ∧ (m'.ec e).unblocks = (m.ec e).unblocks ∧
      (m'.ec e).ticket = (m.ec e).ticket)
    (blocking : ∀ e, (m'.ec e).cont = some .blocking ↔ (m.ec e).cont = some .blocking)
    (timeout : ∀ e i, (m'.ec e).timeout = some i →
      (m.ec e).timeout = some i ∧ (m'.ec e).armed = (m.ec e).armed ∧ (m'.ec e).cont = (m.ec e).cont)
    (token : ∀ e i, (m'.ec e).token = some i → (m.ec e).token = some i ∧ (m'.ec e).cont = (m.ec e).cont ∧
      (m.self c = e → (m.cpu c).pc ≠ .finish .success) ∨ m'.self c = e ∧ (m'.cpu c).pc = .finish .success)
    (cpus : ∀ c', c' ≠ c → m'.self c' = m.self c' ∧ (m'.cpu c').pc = (m.cpu c').pc)
    (others : ∀ c', c' ≠ c → (m'.ec (m.self c')).Quiet (m.cpu c').pc)
    (here : (m'.ec (m'.self c)).Quiet (m'.cpu c).pc)
    (place : ((m'.cpu c).pc = .boot → (m.cpu c).pc = .boot ∧ m'.self c = m.self c) ∧
      ∀ i timed episode, (m'.cpu c).pc ≠ .dnBlock i timed episode) : Waits cfg m' := by
  refine ⟨fun i positive => ?_, fun i => (counter i).2, fun i => ?_, fun i => ?_, fun e => ?_, fun e i set => ?_,
    fun e i has => ?_, fun c' => ?_, fun c' isBoot => ?_, fun c' i timed episode pc => ?_⟩
  · rw [(queue i).1]
    exact (counter i).1 positive
  · simpa only [(queue i).1, (counts _).2.2] using waits.order i
  · simpa only [(queue i).1, (queue i).2, (counts _).2.2] using waits.tickets i
  · obtain ⟨blocks, unblocks, -⟩ := counts e
    simpa only [blocks, unblocks, blocking e] using waits.episodes e
  · obtain ⟨before, armed, cont⟩ := timeout e i set
    rw [armed, (counts e).1, (queue i).1, cont]
    exact waits.timeouts e i before
  · rcases token e i has with ⟨before, cont, away⟩ | finishing
    · rcases waits.tokens e i before with is | ⟨c', current, pc⟩
      · exact Or.inl (cont.trans is)
      · have ne : c' ≠ c := by
          rintro rfl
          exact away current pc
        exact Or.inr ⟨c', (cpus c' ne).1.trans current, (cpus c' ne).2.trans pc⟩
    · exact Or.inr ⟨c, finishing⟩
  · by_cases same : c' = c
    · subst same
      exact here
    · rw [(cpus c' same).1, (cpus c' same).2]
      exact others c' same
  · by_cases same : c' = c
    · subst same
      obtain ⟨pc, current⟩ := place.1 isBoot
      rw [current]
      exact waits.boot c' pc
    · rw [(cpus c' same).1]
      exact waits.boot c' ((cpus c' same).2.symm.trans isBoot)
  · by_cases same : c' = c
    · subst same
      exact absurd pc (place.2 i timed episode)
    · rw [(cpus c' same).1, (counts _).1, blocking, (queue i).1]
      exact waits.dn c' i timed episode ((cpus c' same).2.symm.trans pc)

/-- A step that changes no semaphore, and the continuations of clean ECs only -/
theorem frame (waits : Waits cfg m) (sm : m'.sm = m.sm) (ec : ∀ e, (m'.ec e).waiter = (m.ec e).waiter)
    (cont : ∀ e, (m'.ec e).cont = (m.ec e).cont ∨
      (m.ec e).Clean ∧ (m.ec e).cont ≠ some .blocking ∧ (m'.ec e).cont ≠ some .blocking)
    (cpus : ∀ c', c' ≠ c → m'.self c' = m.self c' ∧ (m'.cpu c').pc = (m.cpu c').pc)
    (here : (m'.ec (m'.self c)).Quiet (m'.cpu c).pc)
    (leave : (m.cpu c).pc = .finish .success → (m.ec (m.self c)).token = none)
    (place : ((m'.cpu c).pc = .boot → (m.cpu c).pc = .boot ∧ m'.self c = m.self c) ∧
      ∀ i timed episode, (m'.cpu c).pc ≠ .dnBlock i timed episode) : Waits cfg m' := by
  refine waits.change (c := c) (fun i => by rw [sm]; exact ⟨rfl, rfl⟩) (fun i => by rw [sm]; exact ⟨waits.empty i, waits.limit i⟩)
    (fun e => ⟨congrArg Waiter.blocks (ec e), congrArg Waiter.unblocks (ec e), congrArg Waiter.ticket (ec e)⟩) (fun e => ?_)
    (fun e i set => ?_) (fun e i has => Or.inl ?_) cpus (fun c' _ => (waits.quiet c').of_eq (ec _) ((cont _).imp_right And.left))
    here place
  · rcases cont e with same | ⟨-, before, after⟩
    · rw [same]
    · exact ⟨fun is => absurd is after, fun is => absurd is before⟩
  · have before : (m.ec e).timeout = some i := (congrArg Waiter.timeout (ec e)).symm.trans set
    refine ⟨before, congrArg Waiter.armed (ec e), (cont e).resolve_right fun ⟨clean, _⟩ => ?_⟩
    rw [clean.1] at before
    cases before
  · have before : (m.ec e).token = some i := (congrArg Waiter.token (ec e)).symm.trans has
    refine ⟨before, (cont e).resolve_right fun ⟨clean, _⟩ => ?_, fun current pc => ?_⟩
    · rw [clean.2] at before
      cases before
    · rw [← current, leave pc] at before
      cases before

/-- An EC that neither blocks nor was released by an up -/
theorem clean_of (waits : Waits cfg m) (graph : Graph cfg m.view) {e : Fin n} (notBlocking : (m.ec e).cont ≠ some .blocking)
    (notReleased : (m.ec e).cont ≠ some (.sysFinish .success true))
    (away : ∀ c, m.self c = e → (m.cpu c).pc ≠ .finish .success) : (m.ec e).Clean := by
  constructor
  · cases set : (m.ec e).timeout with
    | none => rfl
    | some i =>
        rcases (waits.timeouts e i set).2 with member | is
        · exact absurd ((graph.waiting e).mpr ⟨i, member⟩) notBlocking
        · exact absurd is notReleased
  · cases has : (m.ec e).token with
    | none => rfl
    | some i =>
        rcases waits.tokens e i has with is | ⟨c, current, pc⟩
        · exact absurd is notReleased
        · exact absurd pc (away c current)

/-- An EC of a CPU that is at another place -/
theorem away_of (graph : Graph cfg m.view) {e : Fin n} (home : cfg.cpu e = c) (pc : (m.cpu c).pc ≠ .finish .success) :
    ∀ c', m.self c' = e → (m.cpu c').pc ≠ .finish .success := by
  intro c' current finishing
  have : c' = c := (graph.home c').symm.trans ((congrArg cfg.cpu current).trans home)
  subst this
  exact pc finishing

theorem clean (waits : Waits cfg m) (settled : (m.cpu c).pc.settled = true) : (m.ec (m.self c)).Clean :=
  (waits.quiet c).clean settled

/-- The EC that becomes current -/
theorem quiet_run (waits : Waits cfg m) (graph : Graph cfg m.view) {e : Fin n} {g : Cont} (home : cfg.cpu e = c)
    (pc : (m.cpu c).pc ≠ .finish .success) (cont : (m.ec e).cont = some g) (runs : g ≠ .blocking) :
    (m.ec e).Quiet (.run g) := by
  intro other
  refine waits.clean_of graph ?_ ?_ (away_of graph home pc)
  · rw [cont]
    exact fun is => runs (Option.some.inj is)
  · rw [cont]
    exact fun is => other (Option.some.inj is)

theorem goto (waits : Waits cfg m) {p : Pc n} (quiet : (m.ec (m.self c)).Quiet p)
    (leave : (m.cpu c).pc = .finish .success → (m.ec (m.self c)).token = none)
    (notBoot : p ≠ .boot) (notDn : ∀ i timed episode, p ≠ .dnBlock i timed episode) : Waits cfg (m.goto c p) := by
  refine waits.frame (c := c) rfl (fun _ => rfl) (fun _ => Or.inl rfl) (fun c' ne => ?_) ?_ leave ?_
  · simp [ne]
  · simpa using quiet
  · simp [notBoot, notDn]

end Waits

theorem settled_of_resume {p : Pc n} {x : Msg} {back : Back n} (enabled : p.resume x = some back) : p.settled = true := by
  cases p with
  | user => rfl
  | halt => rfl
  | help t => rfl
  | pause => rfl
  | hazard f => rfl
  | _ => cases enabled

theorem back_ne (back : Back n) : back.pc ≠ .boot ∧ ∀ i timed episode, back.pc ≠ .dnBlock i timed episode := by
  cases back <;> exact ⟨nofun, nofun⟩

theorem Raises.settled {back : Back n} (raises : Raises cfg m c back) : (m.cpu c).pc.settled = true := by
  cases raises with
  | hypercall pc utcb =>
      rw [pc]
      rfl
  | gsi enabled => exact settled_of_resume enabled

/-- Jumps between places -/
theorem Waits.jump (waits : Waits cfg m) {p : Pc n} (jump : Jump cfg m c (m.cpu c).pc p) : Waits cfg (m.goto c p) := by
  have quiet := waits.quiet c
  generalize here : (m.cpu c).pc = q at jump
  rw [here] at quiet
  -- the places before and after which the current EC has neither a timeout nor a token
  have plain : q.settled = true → (p ≠ .boot ∧ ∀ i timed episode, p ≠ .dnBlock i timed episode) → Waits cfg (m.goto c p) := by
    intro settled place
    refine waits.goto (quiet.clean settled).quiet (fun is => ?_) place.1 place.2
    rw [← here, is] at settled
    cases settled
  have start : ∀ f, q = .run f → f ≠ .sysFinish .success true →
      (p ≠ .boot ∧ ∀ i timed episode, p ≠ .dnBlock i timed episode) → Waits cfg (m.goto c p) := by
    intro f is other place
    subst is
    refine waits.goto (quiet other).quiet (fun is => ?_) place.1 place.2
    rw [here] at is
    cases is
  cases jump with
  | ret r => exact start _ rfl nofun ⟨nofun, nofun⟩
  | recvKern => exact start _ rfl nofun ⟨nofun, nofun⟩
  | recvUser => exact start _ rfl nofun ⟨nofun, nofun⟩
  | sendMsg x => exact start _ rfl nofun ⟨nofun, nofun⟩
  | sysIpcCall => exact start _ rfl nofun ⟨nofun, nofun⟩
  | sysFinish s => exact start _ rfl nofun ⟨nofun, nofun⟩
  | dead => exact start _ rfl nofun ⟨nofun, nofun⟩
  | idle => exact start _ rfl nofun ⟨nofun, nofun⟩
  | busy => exact start _ rfl nofun ⟨nofun, nofun⟩
  | finish s free =>
      refine waits.goto ⟨quiet.1, ?_⟩ (fun is => ?_) nofun nofun
      · by_cases ok : s = .success
        · exact free ok
        · exact quiet.2 ok
      · rw [here] at is
        cases is
        exact free rfl
  | released i timed episode awake =>
      refine waits.goto ⟨quiet.1, fun ne => absurd rfl ne⟩ (fun is => ?_) nofun nofun
      rw [here] at is
      cases is
  | woken e back empty => exact plain rfl (back_ne back)
  | requeued t back empty => exact plain rfl (back_ne back)
  | rrq enabled => exact plain (settled_of_resume enabled) ⟨nofun, nofun⟩
  | resume enabled => exact plain (settled_of_resume enabled) (back_ne _)
  | pass f free =>
      refine plain rfl ?_
      cases f <;> exact ⟨nofun, nofun⟩
  | _ => exact plain rfl ⟨nofun, nofun⟩

/-- An EC that executes at a settled place has a continuation and does not block. -/
theorem Waits.runs (waits : Waits cfg m) (graph : Graph cfg m.view) (settled : (m.cpu c).pc.settled = true) :
    ∃ f, (m.ec (m.self c)).cont = some f ∧ f ≠ .blocking := by
  have stands := graph.pc c
  rw [show m.view.pc c = (m.cpu c).pc from rfl] at stands
  have idle : (m.ec (m.self c)).cont = some .idle → ∃ f, (m.ec (m.self c)).cont = some f ∧ f ≠ .blocking :=
    fun is => ⟨.idle, is, nofun⟩
  have active : m.view.Active c → ∃ f, (m.ec (m.self c)).cont = some f ∧ f ≠ .blocking :=
    fun ⟨f, cont, notBlocking, _⟩ => ⟨f, cont, notBlocking⟩
  have back : ∀ b, m.view.StandsBack cfg c b → ∃ f, (m.ec (m.self c)).cont = some f ∧ f ≠ .blocking := by
    intro b stands
    cases b with
    | finish s => exact active stands
    | ret r => exact active stands
    | idle => exact idle stands
    | help t => exact active stands.1
    | pause => exact active stands
    | hazard f =>
        cases f with
        | user r => exact active stands
        | idle => exact idle stands
  cases here : (m.cpu c).pc with
  | boot =>
      refine idle ((graph.idle _).mpr ?_)
      rw [waits.boot c here, Config.Idle, cfg.idle_cpu]
  | user =>
      rw [here] at stands
      exact active stands
  | ret r =>
      rw [here] at stands
      exact active stands
  | halt =>
      rw [here] at stands
      exact idle stands
  | hazard f =>
      rw [here] at stands
      exact back (.hazard f) (View.stands_back.mp stands)
  | ipc i =>
      rw [here] at stands
      exact active stands.1
  | help t =>
      rw [here] at stands
      exact active stands.1
  | pause =>
      rw [here] at stands
      exact active stands
  | kill =>
      rw [here] at stands
      obtain ⟨f, cont, notBlocking, -⟩ := stands
      exact ⟨f, cont, notBlocking⟩
  | wake e b =>
      rw [here] at stands
      exact back b stands
  | requeue t b =>
      rw [here] at stands
      exact back b stands
  | _ =>
      rw [here] at settled
      cases settled

theorem Waits.not_blocking (waits : Waits cfg m) (graph : Graph cfg m.view) (settled : (m.cpu c).pc.settled = true) :
    (m.ec (m.self c)).cont ≠ some .blocking := by
  obtain ⟨f, cont, notBlocking⟩ := waits.runs graph settled
  rw [cont]
  exact fun is => notBlocking (Option.some.inj is)

@[simp] theorem putQueue_waiter (e x : Fin n) (s : Nat) : ((m.putQueue e s).ec x).waiter = (m.ec x).waiter := by
  rw [putQueue, setSc_ec, field_setEc Ec.waiter (by rfl)]

/-- The current EC gets another continuation. -/
theorem Waits.setCont (waits : Waits cfg m) (graph : Graph cfg m.view) (settled : (m.cpu c).pc.settled = true)
    {f : Option Cont} {p : Pc n} (other : f ≠ some .blocking)
    (place : p ≠ .boot ∧ ∀ i timed episode, p ≠ .dnBlock i timed episode) :
    Waits cfg ((m.setEc (m.self c) fun x => { x with cont := f }).goto c p) := by
  have clean := waits.clean settled
  refine waits.frame (c := c) rfl (fun e => ?_) (fun e => ?_) (fun c' ne => ?_) ?_ (fun is => ?_) ?_
  · rw [goto_ec, field_setEc Ec.waiter (by rfl)]
  · by_cases here : e = m.self c
    · subst here
      exact Or.inr ⟨clean, waits.not_blocking graph settled, by simpa using other⟩
    · exact Or.inl (by simp [here])
  · simp [ne]
  · refine Ec.Clean.quiet (clean.of_eq ?_)
    simp [Ec.waiter]
  · rw [is] at settled
    cases settled
  · simp [place]

/-- `reply` and `kill` change the continuations of clean ECs. -/
theorem Waits.unlinked (waits : Waits cfg m) (graph : Graph cfg m.view) {a : Fin n} {f h : Option Cont}
    (replies : Replies cfg m c a f h) (callee : (m.ec a).callee = some (m.self c)) :
    (∀ e, ((m.unlinked c a f h).ec e).waiter = (m.ec e).waiter) ∧
    (∀ e, ((m.unlinked c a f h).ec e).cont = (m.ec e).cont ∨
      (m.ec e).Clean ∧ (m.ec e).cont ≠ some .blocking ∧ ((m.unlinked c a f h).ec e).cont ≠ some .blocking) ∧
    (m.ec a).Clean := by
  have settled : (m.cpu c).pc.settled = true := by
    rcases replies.pc with pc | pc <;> rw [pc] <;> rfl
  obtain ⟨-, home, r, waiting⟩ := graph.callee a (m.self c) callee
  have waiting : (m.ec a).cont = some (.retUser r) := waiting
  have away := Waits.away_of graph (home.symm.trans (graph.home c)) (fun is => by rw [is] at settled; cases settled)
  have clean : (m.ec a).Clean := waits.clean_of graph (by simp [waiting]) (by simp [waiting]) away
  refine ⟨fun e => ?_, fun e => ?_, clean⟩
  · rw [Machine.unlinked, setCpu_ec, field_setEc Ec.waiter (by rfl), field_setEc Ec.waiter (by rfl)]
  · by_cases isCaller : e = a
    · subst isCaller
      refine Or.inr ⟨clean, by simp [waiting], ?_⟩
      rcases replies with ⟨pc, -⟩ | pc
      · simp [Machine.unlinked, waiting]
      · simp only [Machine.unlinked, setCpu_ec, setEc_ec, if_true, aborted]
        split <;> rintro ⟨⟩
    · by_cases isSelf : e = m.self c
      · subst isSelf
        refine Or.inr ⟨waits.clean settled, waits.not_blocking graph settled, ?_⟩
        rcases replies with ⟨pc, -⟩ | pc <;> simp [Machine.unlinked, isCaller]
      · exact Or.inl (by simp [Machine.unlinked, isCaller, isSelf])

/-- The EC of another CPU -/
theorem self_ne (graph : Graph cfg m.view) {e : Fin n} (home : cfg.cpu e = c) {c' : Fin k} (ne : c' ≠ c) : m.self c' ≠ e := by
  rintro rfl
  exact ne ((graph.home c').symm.trans home)

/-- The timeout of an EC of this CPU is cancelled. -/
theorem Waits.clearTimeout (waits : Waits cfg m) (graph : Graph cfg m.view) {e : Fin n} {p : Pc n} (home : cfg.cpu e = c)
    (pc : (m.cpu c).pc ≠ .finish .success) (quiet : ((m.setEc e fun x => { x with timeout := none }).ec (m.self c)).Quiet p)
    (place : p ≠ .boot ∧ ∀ i timed episode, p ≠ .dnBlock i timed episode) :
    Waits cfg ((m.setEc e fun x => { x with timeout := none }).goto c p) := by
  refine waits.change (c := c) (fun j => ⟨rfl, rfl⟩) (fun j => ⟨waits.empty j, waits.limit j⟩) (fun x => ?_) (fun x => ?_)
    (fun x j set => ?_) (fun x j has => Or.inl ?_) (fun c' ne => ?_) (fun c' ne => ?_) ?_ ?_
  · by_cases same : x = e <;> simp [same]
  · by_cases same : x = e <;> simp [same]
  · by_cases same : x = e
    · simp [same] at set
    · simpa [same] using set
  · refine ⟨?_, ?_, fun _ => pc⟩
    · by_cases same : x = e
      · simpa [same] using has
      · simpa [same] using has
    · by_cases same : x = e <;> simp [same]
  · simp [ne]
  · simpa [self_ne graph home ne] using waits.quiet c'
  · simpa using quiet
  · simp [place]

/-- A blocking EC that is still current stands at the end of `Sm::dn` or behind it. -/
theorem Waits.quiet_released (waits : Waits cfg m) (graph : Graph cfg m.view) {e' : Ec n}
    (blocking : (m.ec (m.self c)).cont = some .blocking)
    (timeout : (m.ec (m.self c)).timeout = none → e'.timeout = none) (released : e'.cont ≠ some .blocking) :
    e'.Quiet (m.cpu c).pc := by
  have stands := graph.pc c
  rw [show m.view.pc c = (m.cpu c).pc from rfl] at stands
  have quiet := waits.quiet c
  have notSettled : (m.cpu c).pc.settled ≠ true := fun settled => waits.not_blocking graph settled blocking
  cases here : (m.cpu c).pc with
  | run f =>
      rw [here] at stands
      exact absurd (Option.some.inj (stands.1.symm.trans blocking)) stands.2
  | finish s =>
      rw [here] at stands
      exact absurd blocking (cont_of_active stands).1
  | dnBlock i timed episode =>
      rw [here] at quiet
      exact ⟨timeout quiet.1, fun is => absurd is released⟩
  | schedule b => trivial
  | loop t => trivial
  | activate f a => trivial
  | blockSc f a i => trivial
  | _ => exact absurd (by rw [here]; rfl) notSettled

/-- A waiter has no token. -/
theorem Waits.free (waits : Waits cfg m) (graph : Graph cfg m.view) {e : Fin n} {i : Nat} (member : e ∈ (m.sm i).queue) :
    (m.ec e).token = none := by
  have blocking : (m.ec e).cont = some .blocking := (graph.waiting e).mpr ⟨i, member⟩
  cases has : (m.ec e).token with
  | none => rfl
  | some j =>
      rcases waits.tokens e j has with is | ⟨c', current, pc⟩
      · rw [blocking] at is
        cases is
      · have stands := graph.pc c'
        rw [show m.view.pc c' = _ from pc] at stands
        rw [← current] at blocking
        exact absurd blocking (cont_of_active stands).1

/-- `Sm::up` and `Sm::timeout` release the EC `e`. -/
theorem Waits.unblock (waits : Waits cfg m) (graph : Graph cfg m.view) (settled : (m.cpu c).pc.settled = true) {i : Nat}
    {e : Fin n} {back : Back n} {g : Sm n → Sm n} {f : Ec n → Ec n} (member : e ∈ (m.sm i).queue)
    (sm : (g (m.sm i)).queue = (m.sm i).queue.erase e ∧ (g (m.sm i)).counter = (m.sm i).counter ∧
      (g (m.sm i)).arrivals = (m.sm i).arrivals)
    (counts : (f (m.ec e)).blocks = (m.ec e).blocks ∧ (f (m.ec e)).unblocks = (m.ec e).unblocks + 1 ∧
      (f (m.ec e)).ticket = (m.ec e).ticket ∧ (f (m.ec e)).armed = (m.ec e).armed)
    (released : (f (m.ec e)).cont ≠ some .blocking)
    (timeout : (f (m.ec e)).timeout = none ∨
      (f (m.ec e)).timeout = (m.ec e).timeout ∧ (f (m.ec e)).cont = some (.sysFinish .success true))
    (token : (m.ec e).token = none → ∀ j, (f (m.ec e)).token = some j →
      (f (m.ec e)).cont = some (.sysFinish .success true)) :
    Waits cfg (((m.setSm i g).setEc e f).goto c (.wake e back)) := by
  have blocking : (m.ec e).cont = some .blocking := (graph.waiting e).mpr ⟨i, member⟩
  have clean := waits.clean settled
  have notSelf : e ≠ m.self c := by
    rintro rfl
    exact waits.not_blocking graph settled blocking
  have ticket : ∀ x, ((((m.setSm i g).setEc e f).goto c (.wake e back)).ec x).ticket = (m.ec x).ticket := by
    intro x
    by_cases same : x = e
    · subst same
      simpa using counts.2.2.1
    · simp [same]
  have queue : ∀ j x, x ∈ ((((m.setSm i g).setEc e f).goto c (.wake e back)).sm j).queue → x ∈ (m.sm j).queue := by
    intro j x
    by_cases same : j = i
    · subst same
      simp only [goto_sm, setEc_sm, setSm_sm, if_true, sm.1]
      exact List.mem_of_mem_erase
    · simp [same]
  have stays : ∀ j x, x ≠ e → x ∈ (m.sm j).queue →
      x ∈ ((((m.setSm i g).setEc e f).goto c (.wake e back)).sm j).queue := by
    intro j x ne
    by_cases same : j = i
    · subst same
      simp only [goto_sm, setEc_sm, setSm_sm, if_true, sm.1]
      exact (List.mem_erase_of_ne ne).mpr
    · simp [same]
  have free : (m.ec e).token = none := waits.free graph member
  refine ⟨fun j positive => ?_, fun j => ?_, fun j => ?_, fun j x waiting => ?_, fun x => ?_, fun x j set => ?_,
    fun x j has => ?_, fun c' => ?_, fun c' isBoot => ?_, fun c' j timed episode isDn => ?_⟩
  · by_cases same : j = i
    · subst same
      have positive : (m.sm j).counter ≠ 0 := by simpa [sm.2.1] using positive
      rw [waits.empty j positive] at member
      cases member
    · simpa [same] using waits.empty j (by simpa [same] using positive)
  · by_cases same : j = i
    · subst same
      simpa [sm.2.1] using waits.limit j
    · simpa [same] using waits.limit j
  · simp only [ticket]
    by_cases same : j = i
    · subst same
      simp only [goto_sm, setEc_sm, setSm_sm, if_true, sm.1]
      exact (waits.order j).sublist (List.erase_sublist)
    · simpa [same] using waits.order j
  · rw [ticket]
    have before := waits.tickets j x (queue j x waiting)
    by_cases same : j = i
    · subst same
      simpa [sm.2.2] using before
    · simpa [same] using before
  · by_cases same : x = e
    · subst same
      have before := waits.episodes x
      rw [if_pos blocking] at before
      simp [counts.1, counts.2.1, released, before]
    · simpa [same] using waits.episodes x
  · by_cases same : x = e
    · subst same
      simp only [goto_ec, setEc_ec, if_true, setSm_ec] at set ⊢
      rcases timeout with gone | ⟨kept, cont⟩
      · rw [gone] at set
        cases set
      · rw [kept] at set
        rw [counts.1, counts.2.2.2]
        exact ⟨(waits.timeouts x j set).1, Or.inr cont⟩
    · have before := waits.timeouts x j (by simpa [same] using set)
      simp only [goto_ec, setEc_ec, if_neg same, setSm_ec]
      exact ⟨before.1, before.2.imp_left (stays j x same)⟩
  · by_cases same : x = e
    · subst same
      simp only [goto_ec, setEc_ec, if_true, setSm_ec] at has ⊢
      exact Or.inl (token free j has)
    · have before := waits.tokens x j (by simpa [same] using has)
      simp only [goto_ec, setEc_ec, if_neg same, setSm_ec, goto_self, setEc_self, setSm_self]
      refine before.imp_right fun ⟨c', current, pc⟩ => ⟨c', current, ?_⟩
      have ne : c' ≠ c := by
        rintro rfl
        rw [pc] at settled
        cases settled
      simpa [ne] using pc
  · by_cases here : c' = c
    · subst here
      simp only [goto_self, setEc_self, setSm_self, goto_ec, setEc_ec, setSm_ec, if_neg notSelf.symm, goto_pc, if_true]
      exact clean.quiet
    · simp only [goto_self, setEc_self, setSm_self, goto_ec, setEc_ec, setSm_ec, goto_pc, if_neg here, setEc_cpu, setSm_cpu]
      by_cases same : m.self c' = e
      · rw [if_pos same]
        subst same
        refine waits.quiet_released graph blocking (fun none => ?_) released
        rcases timeout with gone | ⟨kept, -⟩
        · exact gone
        · rw [kept, none]
      · rw [if_neg same]
        exact waits.quiet c'
  · by_cases here : c' = c
    · subst here
      simp at isBoot
    · simp only [goto_pc, if_neg here, setEc_cpu, setSm_cpu] at isBoot
      simpa using waits.boot c' isBoot
  · by_cases here : c' = c
    · subst here
      simp at isDn
    · simp only [goto_pc, if_neg here, setEc_cpu, setSm_cpu] at isDn
      obtain ⟨blocks, waiting⟩ := waits.dn c' j timed episode isDn
      simp only [goto_self, setEc_self, setSm_self]
      by_cases same : m.self c' = e
      · subst same
        simp only [goto_ec, setEc_ec, if_true, setSm_ec]
        exact ⟨counts.1.trans blocks, fun is => absurd is released⟩
      · simp only [goto_ec, setEc_ec, if_neg same, setSm_ec]
        exact ⟨blocks, fun is => stays j _ same (waiting is)⟩

/-- `set_timeout` for an EC whose CPU goes on to schedule -/
theorem Waits.setTimeout (waits : Waits cfg m) {e : Fin n} {i : Nat} (member : e ∈ (m.sm i).queue)
    (place : ∀ c, m.self c = e → (m.cpu c).pc = .schedule true) :
    Waits cfg (m.setEc e fun x => { x with timeout := some i, armed := x.blocks }) := by
  refine ⟨waits.empty, waits.limit, fun j => ?_, fun j x => ?_, fun x => ?_, fun x j set => ?_, fun x j has => ?_, fun c => ?_,
    waits.boot, fun c j timed episode pc => ?_⟩
  · refine (waits.order j).imp fun {a b} less => ?_
    have ticket : ∀ x, ((m.setEc e fun x => { x with timeout := some i, armed := x.blocks }).ec x).ticket = (m.ec x).ticket := by
      intro x
      by_cases same : x = e <;> simp [same]
    rw [ticket, ticket]
    exact less
  · by_cases same : x = e
    · subst same
      simpa using waits.tickets j x
    · simpa [same] using waits.tickets j x
  · by_cases same : x = e
    · subst same
      simpa using waits.episodes x
    · simpa [same] using waits.episodes x
  · by_cases same : x = e
    · subst same
      simp only [setEc_ec, if_true, Option.some.injEq] at set ⊢
      subst set
      exact ⟨trivial, Or.inl member⟩
    · simpa [same] using waits.timeouts x j (by simpa [same] using set)
  · by_cases same : x = e
    · subst same
      simpa using waits.tokens x j (by simpa using has)
    · simpa [same] using waits.tokens x j (by simpa [same] using has)
  · by_cases same : m.self c = e
    · rw [setEc_cpu, place c same]
      trivial
    · simpa [same] using waits.quiet c
  · by_cases same : m.self c = e
    · rw [setEc_cpu, place c same] at pc
      cases pc
    · simpa [same] using waits.dn c j timed episode pc

/-- `Sm::dn` blocks the current EC. -/
theorem Waits.suspend (waits : Waits cfg m) (graph : Graph cfg m.view) (pc : (m.cpu c).pc = .user) {i : Nat} {timed : Bool}
    (zero : (m.sm i).counter = 0) :
    Waits cfg (((m.setSm i fun s => { s with queue := s.queue ++ [m.self c], arrivals := s.arrivals + 1 }).setEc (m.self c)
      fun x => { x with cont := some .blocking, queued := true, blocks := x.blocks + 1, ticket := (m.sm i).arrivals }).goto c
        (.dnBlock i timed ((m.ec (m.self c)).blocks + 1))) := by
  have settled : (m.cpu c).pc.settled = true := by rw [pc]; rfl
  have clean := waits.clean settled
  have awake := waits.not_blocking graph settled
  have absent : ∀ j, m.self c ∉ (m.sm j).queue := fun j member => awake ((graph.waiting _).mpr ⟨j, member⟩)
  have apart : ∀ j, ∀ x ∈ (m.sm j).queue, x ≠ m.self c := by
    rintro j x member rfl
    exact absent j member
  generalize made : Machine.goto c _ _ = m'
  have queue : ∀ j, (m'.sm j).queue = if j = i then (m.sm i).queue ++ [m.self c] else (m.sm j).queue := by
    intro j
    rw [← made]
    by_cases same : j = i <;> simp [same]
  have stays : ∀ j x, x ∈ (m.sm j).queue → x ∈ (m'.sm j).queue := by
    intro j x member
    rw [queue]
    split
    · rename_i same
      subst same
      exact List.mem_append_left _ member
    · exact member
  have ticket : ∀ x, (m'.ec x).ticket = if x = m.self c then (m.sm i).arrivals else (m.ec x).ticket := by
    intro x
    rw [← made]
    by_cases same : x = m.self c <;> simp [same]
  have old : ∀ j, ∀ x ∈ (m.sm j).queue, (m'.ec x).ticket = (m.ec x).ticket := by
    intro j x member
    rw [ticket, if_neg (apart j x member)]
  refine ⟨fun j positive => ?_, fun j => ?_, fun j => ?_, fun j x member => ?_, fun x => ?_, fun x j set => ?_,
    fun x j has => ?_, fun c' => ?_, fun c' isBoot => ?_, fun c' j timed' episode isDn => ?_⟩
  · by_cases same : j = i
    · subst same
      simp [← made, zero] at positive
    · rw [queue, if_neg same]
      exact waits.empty j (by simpa [← made, same] using positive)
  · by_cases same : j = i
    · subst same
      simpa [← made] using waits.limit j
    · simpa [← made, same] using waits.limit j
  · have before : (m.sm j).queue.Pairwise fun a b => (m'.ec a).ticket < (m'.ec b).ticket := by
      refine List.Pairwise.imp_of_mem (fun {a b} memA memB less => ?_) (waits.order j)
      rw [old j a memA, old j b memB]
      exact less
    rw [queue]
    split
    · rename_i same
      subst same
      refine List.pairwise_append.mpr ⟨before, List.pairwise_singleton .., fun a memA b memB => ?_⟩
      obtain rfl := List.mem_singleton.mp memB
      rw [old j a memA, ticket, if_pos rfl]
      exact waits.tickets j a memA
    · exact before
  · rw [queue] at member
    by_cases same : j = i
    · subst same
      have arrivals : (m'.sm j).arrivals = (m.sm j).arrivals + 1 := by simp [← made]
      rw [if_pos rfl, List.mem_append, List.mem_singleton] at member
      rw [arrivals]
      rcases member with member | rfl
      · rw [old j x member]
        exact Nat.lt_succ_of_lt (waits.tickets j x member)
      · rw [ticket, if_pos rfl]
        exact Nat.lt_succ_self _
    · have arrivals : (m'.sm j).arrivals = (m.sm j).arrivals := by simp [← made, same]
      rw [if_neg same] at member
      rw [arrivals, old j x member]
      exact waits.tickets j x member
  · by_cases same : x = m.self c
    · subst same
      have before := waits.episodes (m.self c)
      rw [if_neg awake] at before
      simp [← made, before]
    · simpa [← made, same] using waits.episodes x
  · by_cases same : x = m.self c
    · subst same
      simp [← made, clean.1] at set
    · have before := waits.timeouts x j (by simpa [← made, same] using set)
      have kept : m'.ec x = m.ec x := by simp [← made, same]
      rw [kept]
      exact ⟨before.1, before.2.imp_left (stays j x)⟩
  · by_cases same : x = m.self c
    · subst same
      simp [← made, clean.2] at has
    · have before := waits.tokens x j (by simpa [← made, same] using has)
      have kept : m'.ec x = m.ec x := by simp [← made, same]
      rw [kept]
      refine before.imp_right fun ⟨c', current, finishing⟩ => ⟨c', by simpa [← made] using current, ?_⟩
      have ne : c' ≠ c := by
        rintro rfl
        rw [pc] at finishing
        cases finishing
      simpa [← made, ne] using finishing
  · by_cases here : c' = c
    · subst here
      simpa [← made, Ec.Quiet] using ⟨clean.1, clean.2⟩
    · have other : m.self c' ≠ m.self c := self_ne graph (graph.home c) here
      simpa [← made, here, other] using waits.quiet c'
  · by_cases here : c' = c
    · subst here
      simp [← made] at isBoot
    · simpa [← made] using waits.boot c' (by simpa [← made, here] using isBoot)
  · by_cases here : c' = c
    · subst here
      have same : j = i ∧ timed' = timed ∧ episode = (m.ec (m.self c')).blocks + 1 := by
        simpa [← made, eq_comm] using isDn
      obtain ⟨rfl, rfl, rfl⟩ := same
      rw [queue, if_pos rfl]
      simp [← made]
    · have other : m.self c' ≠ m.self c := self_ne graph (graph.home c) here
      obtain ⟨blocks, waiting⟩ := waits.dn c' j timed' episode (by simpa [← made, here] using isDn)
      have current : m'.self c' = m.self c' := by simp [← made]
      have same : m'.ec (m.self c') = m.ec (m.self c') := by simp [← made, other]
      rw [current, same]
      exact ⟨blocks, fun is => stays j _ (waiting is)⟩

/-- Steps that only change SCs, the places of CPU `c` and continuations of clean ECs -/
theorem waits_move (graph : Graph cfg m.view) (waits : Waits cfg m) (move : Move cfg m c m') : Waits cfg m' := by
  cases move with
  | stay => exact waits
  | tick d => exact waits.of_eq rfl rfl rfl
  | jump jump => exact waits.jump jump
  | @preempt f pc =>
      refine waits.setCont graph (by rw [pc]; rfl) ?_ ⟨by rintro ⟨⟩, by rintro _ _ _ ⟨⟩⟩
      cases f <;> rintro ⟨⟩
  | @help i t pc isLocal home busy alive =>
      refine waits.setCont graph (by rw [pc]; rfl) ?_ ⟨by rintro ⟨⟩, by rintro _ _ _ ⟨⟩⟩
      cases i <;> rintro ⟨⟩
  | @rendezvous i t pc isLocal home free =>
      have settled : (m.cpu c).pc.settled = true := by rw [pc]; rfl
      have runs : i.wait ≠ .blocking ∧ i.recv ≠ .blocking := by cases i <;> exact ⟨by rintro ⟨⟩, by rintro ⟨⟩⟩
      have away := Waits.away_of graph (home.symm.trans (graph.home c)) (by rw [pc]; rintro ⟨⟩)
      have target : (m.ec t).Clean := waits.clean_of graph (by simp [free]) (by simp [free]) away
      refine waits.frame (c := c) rfl (fun e => ?_) (fun e => ?_) (fun c' ne => ?_) ?_ ?_ ?_
      · rw [setCpu_ec, field_setEc Ec.waiter (by rfl), field_setEc Ec.waiter (by rfl)]
      · by_cases here : e = t
        · subst here
          exact Or.inr ⟨target, by simp [free], by simpa using runs.2⟩
        · by_cases self : e = m.self c
          · subst self
            exact Or.inr ⟨waits.clean settled, waits.not_blocking graph settled, by simpa [here] using runs.1⟩
          · exact Or.inl (by simp [here, self])
      · simp [ne, self]
      · refine Ec.Clean.quiet (target.of_eq ?_)
        simp only [self, setCpu_cpu, if_true]
        rw [setCpu_ec, field_setEc Ec.waiter (by rfl), field_setEc Ec.waiter (by rfl)]
      · simp [pc]
      · simp
  | @enter e f a d g pc reached cont runs =>
      have home : cfg.cpu f = c := by
        have stands := graph.pc c
        rw [show m.view.pc c = _ from pc] at stands
        exact (graph.home_hop (follow_eq_some reached).1).trans stands
      refine waits.frame (c := c) rfl (fun _ => rfl) (fun _ => Or.inl rfl) (fun c' ne => ?_) ?_ ?_ ?_
      · simp [ne, self]
      · simp only [self, setCpu_cpu, if_true]
        exact waits.quiet_run graph home (by rw [pc]; rintro ⟨⟩) cont runs
      · simp [pc]
      · simp
  | look pc reached blocked =>
      refine waits.frame (c := c) rfl (fun _ => rfl) (fun _ => Or.inl rfl) (fun c' ne => ?_) ?_ ?_ ?_
      · simp [ne, self]
      · simp [Ec.Quiet]
      · simp [pc]
      · simp
  | @unblocked e a i g pc cont runs =>
      have home : cfg.cpu e = c := by
        have stands := graph.pc c
        rw [show m.view.pc c = _ from pc] at stands
        exact stands.1
      refine waits.frame (c := c) rfl (fun _ => rfl) (fun _ => Or.inl rfl) (fun c' ne => ?_) ?_ ?_ ?_
      · simp [ne, self]
      · simp only [self, setCpu_cpu, if_true]
        exact waits.quiet_run graph home (by rw [pc]; rintro ⟨⟩) cont runs
      · simp [pc]
      · simp
  | @wait e a i pc blocked =>
      refine waits.frame (c := c) (by simp) (fun x => ?_) (fun x => Or.inl ?_) (fun c' ne => ?_) ?_ ?_ ?_
      · rw [after_ec, putQueue_waiter]
      · rw [after_ec, putQueue_cont]
      · simp [ne]
      · cases a <;> simp [Ec.Quiet, After.pc]
      · simp [pc]
      · cases a <;> simp [After.pc]
  | @retire f pc caller =>
      refine (waits.setCont (c := c) (f := f) (p := .schedule true) graph ?_ ?_ ⟨by rintro ⟨⟩, by rintro _ _ _ ⟨⟩⟩).of_eq rfl rfl rfl
      · rcases pc with ⟨pc, -⟩ | ⟨pc, -⟩ <;> rw [pc] <;> rfl
      · rcases pc with ⟨-, rfl⟩ | ⟨-, rfl⟩ <;> rintro ⟨⟩
  | @donated a f g replies caller callee some =>
      obtain ⟨waiter, cont, clean⟩ := waits.unlinked graph replies callee
      refine waits.frame (c := c) rfl waiter cont (fun c' ne => ?_) ?_ (fun is => ?_) ?_
      · simp [ne, self, Machine.unlinked]
      · refine Ec.Clean.quiet (clean.of_eq ?_)
        simp only [self, setCpu_cpu, if_true]
        exact waiter a
      · rcases replies.pc with pc | pc <;> rw [is] at pc <;> cases pc
      · simp
  | @helped a f h replies caller callee none =>
      obtain ⟨waiter, cont, -⟩ := waits.unlinked graph replies callee
      refine waits.frame (c := c) rfl waiter cont (fun c' ne => ?_) ?_ (fun is => ?_) ?_
      · simp [ne, self, Machine.unlinked]
      · simp [Ec.Quiet]
      · rcases replies.pc with pc | pc <;> rw [is] at pc <;> cases pc
      · simp
  | @finish i pc token =>
      have quiet := waits.quiet c
      rw [pc] at quiet
      refine waits.change (c := c) (fun j => ?_) (fun j => ?_) (fun x => ?_) (fun x => ?_) (fun x j set => ?_) (fun x j has => ?_)
        (fun c' ne => ?_) (fun c' ne => ?_) ?_ ?_
      · by_cases same : j = i
        · subst same
          simp
        · simp [same]
      · by_cases same : j = i
        · subst same
          simpa using ⟨waits.empty j, waits.limit j⟩
        · simpa [same] using ⟨waits.empty j, waits.limit j⟩
      · by_cases same : x = m.self c <;> simp [same]
      · by_cases same : x = m.self c <;> simp [same]
      · by_cases same : x = m.self c
        · subst same
          simp [quiet.1] at set
        · simpa [same] using set
      · by_cases same : x = m.self c
        · subst same
          simp at has
        · exact Or.inl ⟨by simpa [same] using has, by simp [same], fun is => absurd is.symm same⟩
      · simp [ne]
      · have apart := self_ne graph (graph.home c) ne
        simpa [show m.self c' ≠ m.self c from apart] using waits.quiet c'
      · simpa [Ec.Quiet, Ec.Clean] using quiet.1
      · simp
  | @cancel s pc =>
      have quiet := waits.quiet c
      rw [pc] at quiet
      refine waits.clearTimeout graph (graph.home c) (by rw [pc]; rintro ⟨⟩) ?_ ⟨by rintro ⟨⟩, by rintro _ _ _ ⟨⟩⟩
      simp only [setEc_ec, if_true]
      exact ⟨rfl, fun failed => (quiet fun is => failed (Cont.sysFinish.inj is).1).2⟩
  | block pc =>
      refine waits.frame (c := c) rfl (fun _ => rfl) (fun _ => Or.inl rfl) (fun c' ne => ?_) ?_ ?_ ?_
      · simp [ne]
      · simp [Ec.Quiet]
      · simp [pc]
      · simp
  | yield_ pc free home =>
      refine waits.frame (c := c) rfl (fun _ => rfl) (fun _ => Or.inl rfl) (fun c' ne => ?_) ?_ ?_ ?_
      · simp [ne]
      · simp [Ec.Quiet]
      · simp [pc]
      · simp
  | dispatch pc head armed home =>
      refine waits.frame (c := c) rfl (fun _ => rfl) (fun _ => Or.inl rfl) (fun c' ne => ?_) ?_ ?_ ?_
      · simp [ne]
      · simp [Ec.Quiet]
      · simp [pc]
      · simp
  | @wake e back s rest pc head =>
      have waiter : ∀ x, (((m.takeQueue e s rest).put cfg c s).ec x).waiter = (m.ec x).waiter := by
        intro x
        rw [put_ec, takeQueue, setSc_ec, field_setEc Ec.waiter (by rfl)]
      have cont : ∀ x, (((m.takeQueue e s rest).put cfg c s).ec x).cont = (m.ec x).cont := by
        intro x
        by_cases same : x = e
        · subst same
          simp [takeQueue]
        · simp [takeQueue, same]
      refine waits.frame (c := c) (by simp) waiter (fun x => Or.inl (cont x)) (fun c' ne => ?_) ?_ ?_ ?_
      · simp
      · rw [put_self, takeQueue_self, pc_put, takeQueue_cpu]
        exact (waits.quiet c).of_eq (waiter _) (Or.inl (cont _))
      · simp [pc]
      · simp [pc]
  | requeue pc head home =>
      refine waits.frame (c := c) rfl (fun _ => rfl) (fun _ => Or.inl rfl) (fun c' ne => ?_) ?_ ?_ ?_
      · simp
      · simpa using waits.quiet c
      · simp [pc]
      · simp [pc]
  | @create s p creates new bound =>
      have quiet : (m.ec (m.self c)).Quiet p := by
        cases creates with
        | hypercall pc => exact (waits.clean (by rw [pc]; rfl)).quiet
        | root pc =>
            rw [← pc]
            exact waits.quiet c
      refine waits.frame (c := c) (by simp) (fun _ => by simp) (fun _ => Or.inl (by simp)) (fun c' ne => ?_) ?_ ?_ ?_
      · rw [goto_self, put_self, goto_pc, if_neg ne, pc_put]
        exact ⟨rfl, rfl⟩
      · rw [goto_self, put_self, goto_pc, if_pos rfl, goto_ec, put_ec]
        exact quiet
      · cases creates with
        | hypercall pc => simp [pc]
        | root pc => simp [pc]
      · rw [goto_pc, if_pos rfl, goto_self, put_self]
        cases creates with
        | hypercall pc => exact ⟨by rintro ⟨⟩, by rintro _ _ _ ⟨⟩⟩
        | root pc => exact ⟨fun _ => ⟨pc, rfl⟩, by rintro _ _ _ ⟨⟩⟩
  | @take i zero pc positive =>
      have settled : (m.cpu c).pc.settled = true := by rw [pc]; rfl
      have clean := waits.clean settled
      refine waits.change (c := c) (fun j => ?_) (fun j => ?_) (fun x => ?_) (fun x => ?_) (fun x j set => ?_) (fun x j has => ?_)
        (fun c' ne => ?_) (fun c' ne => ?_) ?_ ?_
      · by_cases same : j = i
        · subst same
          simp
        · simp [same]
      · by_cases same : j = i
        · subst same
          have limit := waits.limit j
          refine ⟨fun _ => waits.empty j positive, ?_⟩
          simp only [goto_sm, setEc_sm, setSm_sm, if_true]
          split <;> omega
        · simpa [same] using ⟨waits.empty j, waits.limit j⟩
      · by_cases same : x = m.self c <;> simp [same]
      · by_cases same : x = m.self c <;> simp [same]
      · by_cases same : x = m.self c
        · subst same
          simp [clean.1] at set
        · simpa [same] using set
      · by_cases same : x = m.self c
        · subst same
          exact Or.inr (by simp)
        · exact Or.inl ⟨by simpa [same] using has, by simp [same], fun is => absurd is.symm same⟩
      · simp [ne]
      · have apart := self_ne graph (graph.home c) ne
        simpa [show m.self c' ≠ m.self c from apart] using waits.quiet c'
      · simpa [Ec.Quiet] using clean.1
      · simp
  | @suspend i timed pc utcb zero => exact waits.suspend graph pc zero
  | @sleep i timed episode pc blocked free =>
      obtain ⟨blocks, waiting⟩ := waits.dn c i timed episode pc
      have quiet := waits.quiet c
      rw [pc] at quiet
      have blocking : (m.ec (m.self c)).cont = some .blocking := by
        have stands := graph.pc c
        rw [show m.view.pc c = _ from pc] at stands
        refine stands.resolve_right fun is => ?_
        simp [Ec.blocked, show (m.ec (m.self c)).cont = _ from is] at blocked
      have queued : Waits cfg ((m.putQueue (m.self c) (m.cpu c).sc).goto c (.schedule true)) := by
        refine waits.frame (c := c) rfl (fun x => ?_) (fun x => Or.inl ?_) (fun c' ne => ?_) ?_ ?_ ?_
        · simp
        · simp
        · simp [ne]
        · simp [Ec.Quiet]
        · simp [pc]
        · simp
      cases timed with
      | false =>
          have same : ((m.putQueue (m.self c) (m.cpu c).sc).setEc (m.self c) fun x => x) = m.putQueue (m.self c) (m.cpu c).sc :=
            setEc_eq_self rfl
          simpa [same] using queued
      | true =>
          refine queued.setTimeout (i := i) (by simpa using waiting blocking) fun c' is => ?_
          have here : c' = c := by
            by_contra ne
            rw [goto_self, putQueue_self] at is
            exact self_ne graph (graph.home c) ne is
          subst here
          simp
  | @count i back raises empty below =>
      have settled := raises.settled
      refine waits.change (c := c) (fun j => ?_) (fun j => ?_) (fun x => ⟨rfl, rfl, rfl⟩) (fun x => Iff.rfl)
        (fun x j set => ⟨set, rfl, rfl⟩) (fun x j has => Or.inl ⟨has, rfl, fun _ is => ?_⟩) (fun c' ne => ?_)
        (fun c' ne => waits.quiet c') ?_ ?_
      · by_cases same : j = i
        · subst same
          simp
        · simp [same]
      · by_cases same : j = i
        · subst same
          have limit := waits.limit j
          refine ⟨fun _ => empty, ?_⟩
          simp only [goto_sm, setSm_sm, if_true]
          omega
        · simpa [same] using ⟨waits.empty j, waits.limit j⟩
      · rw [is] at settled
        cases settled
      · simp [ne]
      · simpa using (waits.clean settled).quiet
      · simp [back_ne]
  | @release i back e rest raises head =>
      refine waits.unblock graph raises.settled (by simp [head]) ⟨?_, rfl, rfl⟩ ⟨rfl, rfl, rfl, rfl⟩ (by rintro ⟨⟩)
        (Or.inr ⟨rfl, rfl⟩) fun _ _ _ => rfl
      simp [head]
  | @stale x back e i enabled set home awake =>
      have settled := settled_of_resume enabled
      have clean := waits.clean settled
      refine waits.clearTimeout graph home (fun is => by rw [is] at settled; cases settled) ?_ (back_ne back)
      by_cases same : m.self c = e
      · subst same
        simp only [setEc_ec, if_true]
        exact Ec.Clean.quiet ⟨rfl, clean.2⟩
      · simp only [setEc_ec, if_neg same]
        exact clean.quiet
  | @timeout x back e i enabled set home blocked member =>
      refine waits.unblock graph (settled_of_resume enabled) member ⟨rfl, rfl, rfl⟩ ⟨rfl, rfl, rfl, rfl⟩ (by rintro ⟨⟩)
        (Or.inl rfl) fun none j has => ?_
      rw [show (m.ec e).token = some j from has] at none
      cases none
  | sched enabled armed =>
      refine waits.frame (c := c) rfl (fun _ => rfl) (fun _ => Or.inl rfl) (fun c' ne => ?_) ?_ ?_ ?_
      · simp [ne, self]
      · simp only [setCpu_cpu, self, if_true]
        exact (waits.clean (settled_of_resume enabled)).quiet
      · intro is
        rw [is] at enabled
        cases enabled
      · simp [back_ne]

theorem waits_init (cfg : Config n k) (root : Option (Fin n)) (vm : Msg) (count : Nat → Nat) :
    Waits cfg (init cfg root vm count) := by
  refine ⟨fun i _ => rfl, fun i => Nat.mod_lt _ (Nat.two_pow_pos 64), fun i => List.Pairwise.nil, nofun, fun e => ?_, nofun, nofun,
    fun c => ⟨rfl, rfl⟩, fun c _ => rfl, nofun⟩
  have starts : boots cfg root vm e ≠ some .blocking := by
    unfold boots
    split
    · nofun
    · cases cfg.subtype e with
      | ecGlobal =>
          dsimp only
          split <;> nofun
      | _ => nofun
  show 0 = 0 + if boots cfg root vm e = some .blocking then 1 else 0
  rw [if_neg starts]

/-! ## Tokens -/

/-- The downs that got a token of the semaphore and have not finished -/
def holders (m : Machine n k) (i : Nat) : Finset (Fin n) := {e | (m.ec e).token = some i}

/-- Every token is in the counter, or was consumed, or was discarded, or is held. -/
def Ledger (count : Nat → Nat) (m : Machine n k) : Prop :=
  ∀ i, count i % 2 ^ 64 + (m.sm i).ups =
    (m.sm i).counter + (m.sm i).finished + (m.sm i).discarded + (m.holders i).card

theorem holders_of_eq {i : Nat} (same : ∀ e, (m'.ec e).token = (m.ec e).token) : m'.holders i = m.holders i := by
  unfold holders
  simp only [same]

/-- An EC gets a token. -/
theorem holders_give {e : Fin n} {i : Nat} (free : (m.ec e).token = none) (given : (m'.ec e).token = some i)
    (others : ∀ x, x ≠ e → (m'.ec x).token = (m.ec x).token) (j : Nat) :
    (m'.holders j).card = (m.holders j).card + if j = i then 1 else 0 := by
  by_cases same : j = i
  · subst same
    have insert : m'.holders j = insert e (m.holders j) := by
      ext x
      by_cases here : x = e
      · subst here
        simp [holders, given]
      · simp [holders, others x here, here]
    rw [insert, Finset.card_insert_of_notMem (by simp [holders, free]), if_pos rfl]
  · have equal : m'.holders j = m.holders j := by
      ext x
      by_cases here : x = e
      · subst here
        simp [holders, given, free, Ne.symm same]
      · simp [holders, others x here]
    rw [equal, if_neg same, Nat.add_zero]

section Ledgers

variable {count : Nat → Nat}

theorem Ledger.of_eq (ledger : Ledger count m) (sm : m'.sm = m.sm) (token : ∀ e, (m'.ec e).token = (m.ec e).token) :
    Ledger count m' := by
  intro i
  rw [sm, holders_of_eq token]
  exact ledger i

/-- The books of one semaphore change, and `a` or `b` holders come or go. -/
theorem Ledger.balance (ledger : Ledger count m) {i a b : Nat} (others : ∀ j, j ≠ i → m'.sm j = m.sm j)
    (cards : ∀ j, (m'.holders j).card + (if j = i then a else 0) = (m.holders j).card + if j = i then b else 0)
    (sum : (m'.sm i).ups + ((m.sm i).counter + (m.sm i).finished + (m.sm i).discarded) + a =
      (m.sm i).ups + ((m'.sm i).counter + (m'.sm i).finished + (m'.sm i).discarded) + b) : Ledger count m' := by
  intro j
  have before := ledger j
  have card := cards j
  by_cases same : j = i
  · subst same
    rw [if_pos rfl, if_pos rfl] at card
    omega
  · rw [if_neg same, if_neg same] at card
    rw [others j same]
    omega

theorem Ledger.give (ledger : Ledger count m) {e : Fin n} {i : Nat} (free : (m.ec e).token = none)
    (given : (m'.ec e).token = some i) (tokens : ∀ x, x ≠ e → (m'.ec x).token = (m.ec x).token)
    (others : ∀ j, j ≠ i → m'.sm j = m.sm j)
    (sum : (m'.sm i).ups + ((m.sm i).counter + (m.sm i).finished + (m.sm i).discarded) =
      (m.sm i).ups + ((m'.sm i).counter + (m'.sm i).finished + (m'.sm i).discarded) + 1) : Ledger count m' := by
  refine ledger.balance (a := 0) (b := 1) others (fun j => ?_) (by omega)
  rw [holders_give free given tokens j]
  simp

theorem Ledger.pay (ledger : Ledger count m) {e : Fin n} {i : Nat} (has : (m.ec e).token = some i)
    (paid : (m'.ec e).token = none) (tokens : ∀ x, x ≠ e → (m'.ec x).token = (m.ec x).token)
    (others : ∀ j, j ≠ i → m'.sm j = m.sm j)
    (sum : (m'.sm i).ups + ((m.sm i).counter + (m.sm i).finished + (m.sm i).discarded) + 1 =
      (m.sm i).ups + ((m'.sm i).counter + (m'.sm i).finished + (m'.sm i).discarded)) : Ledger count m' := by
  refine ledger.balance (a := 1) (b := 0) others (fun j => ?_) (by omega)
  rw [holders_give paid has (fun x ne => (tokens x ne).symm) j]
  simp

theorem Ledger.keep (ledger : Ledger count m) {i : Nat} (tokens : ∀ x, (m'.ec x).token = (m.ec x).token)
    (others : ∀ j, j ≠ i → m'.sm j = m.sm j)
    (sum : (m'.sm i).ups + ((m.sm i).counter + (m.sm i).finished + (m.sm i).discarded) =
      (m.sm i).ups + ((m'.sm i).counter + (m'.sm i).finished + (m'.sm i).discarded)) : Ledger count m' := by
  refine ledger.balance (a := 0) (b := 0) others (fun j => ?_) (by omega)
  rw [holders_of_eq tokens]

theorem ledger_move (graph : Graph cfg m.view) (waits : Waits cfg m) (ledger : Ledger count m) (move : Move cfg m c m') :
    Ledger count m' := by
  cases move with
  | stay => exact ledger
  | tick d => exact ledger
  | jump jump => exact ledger
  | preempt pc => exact ledger.of_eq rfl fun e => by rw [Machine.preempt, goto_ec, field_setEc Ec.token (by rfl)]
  | help pc isLocal home busy alive => exact ledger.of_eq rfl fun e => by rw [goto_ec, field_setEc Ec.token (by rfl)]
  | rendezvous pc isLocal home free =>
      exact ledger.of_eq rfl fun e => by rw [setCpu_ec, field_setEc Ec.token (by rfl), field_setEc Ec.token (by rfl)]
  | enter pc reached cont runs => exact ledger
  | look pc reached blocked => exact ledger
  | unblocked pc cont runs => exact ledger
  | wait pc blocked => exact ledger.of_eq (by simp) fun e => by rw [after_ec, putQueue, setSc_ec, field_setEc Ec.token (by rfl)]
  | retire pc caller =>
      refine ledger.of_eq rfl fun e => ?_
      rw [retire_ec, field_setEc Ec.token (by rfl)]
  | donated replies caller callee some =>
      exact ledger.of_eq rfl fun e => by rw [setCpu_ec, unlinked, setCpu_ec, field_setEc Ec.token (by rfl), field_setEc Ec.token (by rfl)]
  | helped replies caller callee none =>
      exact ledger.of_eq rfl fun e => by rw [goto_ec, unlinked, setCpu_ec, field_setEc Ec.token (by rfl), field_setEc Ec.token (by rfl)]
  | @finish i pc token =>
      refine ledger.pay (i := i) token (by simp) (fun x ne => by simp [ne]) (fun j ne => by simp [ne]) ?_
      simp only [goto_sm, setEc_sm, setSm_sm, if_true]
      omega
  | cancel pc => exact ledger.of_eq rfl fun e => by rw [goto_ec, field_setEc Ec.token (by rfl)]
  | block pc => exact ledger
  | yield_ pc free home => exact ledger
  | dispatch pc head armed home => exact ledger
  | wake pc head => exact ledger.of_eq (by simp) fun e => by rw [put_ec, takeQueue, setSc_ec, field_setEc Ec.token (by rfl)]
  | requeue pc head home => exact ledger
  | create creates new bound => exact ledger.of_eq (by simp) fun e => by rw [goto_ec, put_ec]
  | @take i zero pc positive =>
      have clean := waits.clean (c := c) (by rw [pc]; rfl)
      refine ledger.give (i := i) clean.2 (by simp) (fun x ne => by simp [ne]) (fun j ne => by simp [ne]) ?_
      simp only [goto_sm, setEc_sm, setSm_sm, if_true]
      cases zero with
      | true =>
          simp only [if_true]
          omega
      | false =>
          simp only [Bool.false_eq_true, if_false]
          omega
  | @suspend i timed pc utcb zero =>
      refine ledger.keep (i := i) (fun x => ?_) (fun j ne => by simp [ne]) ?_
      · rw [goto_ec, field_setEc Ec.token (by rfl), setSm_ec]
      · simp
  | @sleep i timed episode pc blocked free =>
      refine ledger.of_eq rfl fun x => ?_
      rw [goto_ec, field_setEc Ec.token (by cases timed <;> rfl), putQueue, setSc_ec, field_setEc Ec.token (by rfl)]
  | @count i back raises empty below =>
      refine ledger.keep (i := i) (fun x => rfl) (fun j ne => by simp [ne]) ?_
      simp only [goto_sm, setSm_sm, if_true]
      omega
  | @release i back e rest raises head =>
      refine ledger.give (i := i) (e := e) (waits.free graph (i := i) (by simp [head])) (by simp) (fun x ne => by simp [ne])
        (fun j ne => by simp [ne]) ?_
      simp only [goto_sm, setEc_sm, setSm_sm, if_true]
      omega
  | stale enabled set home awake => exact ledger.of_eq rfl fun e => by rw [goto_ec, field_setEc Ec.token (by rfl)]
  | @timeout x back e i enabled set home blocked member =>
      refine ledger.keep (i := i) (fun x => ?_) (fun j ne => by simp [ne]) ?_
      · rw [goto_ec, field_setEc Ec.token (by rfl), setSm_ec]
      · simp
  | sched enabled armed => exact ledger

end Ledgers

end Machine

end Nova.Kernel.Contexts
