/-
# Nova.Kernel.Donation — the time that callers donate

`donations` of a CPU counts the callees between the EC at which `activate` entered the
chain of the current SC, and the current EC.  `rendezvous` makes the chain longer by one
and `reply` makes it shorter by one, unless the chain was entered at the callee; then
`donations` wraps around, and the next `activate` sets it anew.
-/
import Nova.Kernel.Semaphore

namespace Nova.Kernel.Contexts

open Nova.Theory.Chains

set_option autoImplicit false

variable {n k : Nat}

/-- The length of the chain of the current SC, and where it begins -/
def Cpu.chain (x : Cpu n) : Nat × Fin n := (x.donations, x.entry)

/-- The EC to which the chain of the current SC leads -/
def Pc.target (current : Fin n) : Pc n → Option (Fin n)
  | .schedule _ | .loop _ | .activate _ _ => none
  | .blockSc e _ _ => some e
  | _ => some current

namespace Machine

variable (cfg : Config n k) (m : Machine n k)

/-- `Ec::callee` -/
def callee (e : Fin n) : Option (Fin n) := (m.ec e).callee

@[simp] theorem setCpu_callee (c : Fin k) (f : Cpu n → Cpu n) : (m.setCpu c f).callee = m.callee := rfl
@[simp] theorem goto_callee (c : Fin k) (p : Pc n) : (m.goto c p).callee = m.callee := rfl

structure Donated : Prop where
  chain : ∀ c e, (m.cpu c).pc.target (m.self c) = some e → hop m.callee (m.cpu c).donations (m.cpu c).entry = some e
  home : ∀ c, cfg.cpu (m.cpu c).entry = c

variable {cfg m} {m' : Machine n k} {c : Fin k}

/-- `donations` does not overflow. -/
theorem unsigned_of_lt {d : Nat} (small : d ≤ n) (cfg : Config n k) : unsigned d = d := by
  have count := cfg.ec_count
  exact Nat.mod_eq_of_lt (by omega)

theorem hop_lt (graph : Graph cfg m.view) {d : Nat} {e f : Fin n} (reached : hop m.callee d e = some f) : d < n := by
  have := hop_lt_card (graph.ends e) reached
  rwa [Fintype.card_fin] at this

namespace Donated

/-- A chain on another CPU -/
theorem hop_other (donated : Donated cfg m) (graph : Graph cfg m.view) (callee : ∀ e, cfg.cpu e ≠ c → m'.callee e = m.callee e)
    {c' : Fin k} (ne : c' ≠ c) (d : Nat) : hop m'.callee d (m.cpu c').entry = hop m.callee d (m.cpu c').entry := by
  refine hop_congr (P := fun e => cfg.cpu e = c') (fun a b home next => ?_) (fun a home => callee a ?_) (donated.home c')
  · exact (graph.callee a b next).2.1.trans home
  · rw [home]
    exact ne

/-- A step that changes the partners of ECs of CPU `c`, and the chain of `c` -/
theorem update (donated : Donated cfg m) (graph : Graph cfg m.view) (callee : ∀ e, cfg.cpu e ≠ c → m'.callee e = m.callee e)
    (others : ∀ c', c' ≠ c → (m'.cpu c').donations = (m.cpu c').donations ∧ (m'.cpu c').entry = (m.cpu c').entry ∧
      m'.self c' = m.self c' ∧ (m'.cpu c').pc = (m.cpu c').pc)
    (chain : ∀ e, (m'.cpu c).pc.target (m'.self c) = some e → hop m'.callee (m'.cpu c).donations (m'.cpu c).entry = some e)
    (home : cfg.cpu (m'.cpu c).entry = c) : Donated cfg m' := by
  refine ⟨fun c' e is => ?_, fun c' => ?_⟩
  · by_cases same : c' = c
    · subst same
      exact chain e is
    · obtain ⟨donations, entry, current, pc⟩ := others c' same
      rw [pc, current] at is
      rw [donations, entry, donated.hop_other graph callee same]
      exact donated.chain c' e is
  · by_cases same : c' = c
    · subst same
      exact home
    · rw [(others c' same).2.1]
      exact donated.home c'

/-- A step that changes no partner and no chain -/
theorem frame (donated : Donated cfg m) (graph : Graph cfg m.view) (callee : ∀ e, (m'.ec e).callee = (m.ec e).callee)
    (chains : ∀ c', (m'.cpu c').chain = (m.cpu c').chain)
    (others : ∀ c', c' ≠ c → m'.self c' = m.self c' ∧ (m'.cpu c').pc = (m.cpu c').pc)
    (here : ∀ e, (m'.cpu c).pc.target (m'.self c) = some e → (m.cpu c).pc.target (m.self c) = some e) : Donated cfg m' := by
  have same : m'.callee = m.callee := funext callee
  have donations : ∀ c', (m'.cpu c').donations = (m.cpu c').donations := fun c' => congrArg Prod.fst (chains c')
  have entry : ∀ c', (m'.cpu c').entry = (m.cpu c').entry := fun c' => congrArg Prod.snd (chains c')
  refine donated.update (c := c) graph (fun e _ => callee e)
    (fun c' ne => ⟨donations c', entry c', (others c' ne).1, (others c' ne).2⟩) (fun e is => ?_) ?_
  · rw [same, donations, entry]
    exact donated.chain c e (here e is)
  · rw [entry]
    exact donated.home c

end Donated

/-- Where interrupts are enabled, the current EC executes. -/
theorem target_of_resume {p : Pc n} {x : Msg} {back : Back n} (enabled : p.resume x = some back) (e : Fin n) :
    p.target e = some e := by
  cases p with
  | user => rfl
  | halt => rfl
  | help t => rfl
  | pause => rfl
  | hazard f => rfl
  | _ => cases enabled

theorem target_back (back : Back n) (e : Fin n) : back.pc.target e = some e := by
  cases back <;> rfl

/-- A jump comes from a place where the current EC executes, and leads to such a place or gives it up. -/
theorem Jump.target {p q : Pc n} (jump : Jump cfg m c p q) (e : Fin n) :
    p.target e = some e ∧ (q.target e = some e ∨ q.target e = none) := by
  cases jump with
  | boot => exact ⟨rfl, Or.inr rfl⟩
  | yield_ t => exact ⟨rfl, Or.inr rfl⟩
  | help t => exact ⟨rfl, Or.inr rfl⟩
  | pass f free => cases f <;> exact ⟨rfl, Or.inl rfl⟩
  | woken f back empty => exact ⟨rfl, Or.inl (target_back back e)⟩
  | requeued t back empty => exact ⟨rfl, Or.inl (target_back back e)⟩
  | rrq enabled => exact ⟨target_of_resume enabled e, Or.inl rfl⟩
  | resume enabled => exact ⟨target_of_resume enabled e, Or.inl (target_back _ e)⟩
  | _ => exact ⟨rfl, Or.inl rfl⟩

theorem goto_chain (x : Machine n k) (p : Pc n) (c' : Fin k) : ((x.goto c p).cpu c').chain = (x.cpu c').chain :=
  field_setCpu Cpu.chain rfl c'

theorem Raises.target {back : Back n} (raises : Raises cfg m c back) (e : Fin n) : (m.cpu c).pc.target e = some e := by
  cases raises with
  | hypercall pc utcb =>
      rw [pc]
      rfl
  | gsi enabled => exact target_of_resume enabled e

theorem put_chain (x : Machine n k) (s : Nat) (c' : Fin k) : ((x.put cfg c s).cpu c').chain = (x.cpu c').chain := by
  unfold put
  split
  · rw [putReady, setSc_cpu, field_setCpu Cpu.chain (by rfl)]
  · rw [putRelease, setSc_cpu, field_setCpu Cpu.chain (by rfl)]

namespace Donated

/-- The current EC goes on to execute, or gives up the CPU. -/
theorem stay (donated : Donated cfg m) (graph : Graph cfg m.view) (callee : ∀ e, (m'.ec e).callee = (m.ec e).callee)
    (chains : ∀ c', (m'.cpu c').chain = (m.cpu c').chain)
    (others : ∀ c', c' ≠ c → m'.self c' = m.self c' ∧ (m'.cpu c').pc = (m.cpu c').pc)
    (here : (m.cpu c).pc.target (m.self c) = some (m.self c)) (current : m'.self c = m.self c)
    (place : (m'.cpu c).pc.target (m.self c) = some (m.self c) ∨ (m'.cpu c).pc.target (m.self c) = none) : Donated cfg m' := by
  refine donated.frame (c := c) graph callee chains others fun e is => ?_
  rw [current] at is
  rcases place with same | none
  · rw [same] at is
    rw [here]
    exact is
  · rw [none] at is
    cases is

/-- The CPU gives up its chain. -/
theorem leave (donated : Donated cfg m) (graph : Graph cfg m.view) (callee : ∀ e, (m'.ec e).callee = (m.ec e).callee)
    (chains : ∀ c', (m'.cpu c').chain = (m.cpu c').chain)
    (others : ∀ c', c' ≠ c → m'.self c' = m.self c' ∧ (m'.cpu c').pc = (m.cpu c').pc)
    (place : ∀ e, (m'.cpu c).pc.target e = none) : Donated cfg m' := by
  refine donated.frame (c := c) graph callee chains others fun e is => ?_
  rw [place] at is
  cases is

end Donated

theorem callee_unlinked (a : Fin n) (f h : Option Cont) :
    (m.unlinked c a f h).callee = Function.update m.callee a none := by
  funext x
  by_cases isCaller : x = a
  · simp [callee, unlinked, isCaller]
  · rw [Function.update_of_ne isCaller]
    show ((m.unlinked c a f h).ec x).callee = _
    rw [unlinked, setCpu_ec, setEc_ec, if_neg isCaller, field_setEc Ec.callee (by rfl)]
    rfl

theorem Replies.target {a : Fin n} {f h : Option Cont} (replies : Replies cfg m c a f h) (e : Fin n) :
    (m.cpu c).pc.target e = some e := by
  rcases replies.pc with pc | pc <;> rw [pc] <;> rfl

/-- If the chain has an edge, then the caller of the current EC is its last but one EC. -/
theorem Donated.caller_on_chain (donated : Donated cfg m) (graph : Graph cfg m.view) {a : Fin n}
    (here : (m.cpu c).pc.target (m.self c) = some (m.self c)) (caller : (m.ec (m.self c)).caller = some a)
    (nonzero : (m.cpu c).donations ≠ 0) :
    ∃ d, (m.cpu c).donations = d + 1 ∧ hop m.callee d (m.cpu c).entry = some a := by
  have chain := donated.chain c (m.self c) here
  obtain ⟨d, donations⟩ := Nat.exists_eq_succ_of_ne_zero nonzero
  refine ⟨d, donations, ?_⟩
  rw [donations, hop_succ] at chain
  obtain ⟨x, reached, callee⟩ := Option.bind_eq_some_iff.mp chain
  have same : (m.ec (m.self c)).caller = some x := (graph.inverse x _).mp callee
  rw [caller] at same
  obtain rfl := Option.some.inj same
  exact reached

theorem donated_move (graph : Graph cfg m.view) (donated : Donated cfg m) (move : Move cfg m c m') : Donated cfg m' := by
  cases move with
  | stay => exact donated
  | tick d => exact ⟨donated.chain, donated.home⟩
  | jump jump =>
      have target := jump.target (m.self c)
      exact donated.stay (c := c) graph (fun _ => rfl) (goto_chain _ _) (fun c' ne => by simp [ne]) target.1 (by simp)
        (by simpa using target.2)
  | preempt pc =>
      exact donated.leave (c := c) graph (fun e => by rw [Machine.preempt, goto_ec, field_setEc Ec.callee (by rfl)])
        (goto_chain _ _) (fun c' ne => by simp [Machine.preempt, ne]) (by simp [Machine.preempt, Pc.target])
  | help pc isLocal home busy alive =>
      exact donated.stay (c := c) graph (fun e => by rw [goto_ec, field_setEc Ec.callee (by rfl)]) (goto_chain _ _)
        (fun c' ne => by simp [ne]) (by rw [pc]; rfl) (by simp) (by simp [Pc.target])
  | @rendezvous i t pc isLocal home free =>
      have chain := donated.chain c (m.self c) (by rw [pc]; rfl)
      have small := hop_lt graph chain
      have last : m.callee (m.self c) = none := graph.last c
      generalize made : Machine.setCpu _ c _ = m'
      have callee : m'.callee = Function.update m.callee (m.self c) (some t) := by
        funext x
        rw [Machine.callee, ← made, setCpu_ec, field_setEc Ec.callee (by rfl)]
        by_cases same : x = m.self c
        · subst same
          simp
        · simp [Machine.callee, same]
      refine donated.update (c := c) graph (fun e away => ?_) (fun c' ne => ?_) (fun e is => ?_) ?_
      · rw [callee, Function.update_of_ne]
        rintro rfl
        exact away (graph.home c)
      · simp [← made, self, ne]
      · have same : e = t := by simpa [← made, self, Pc.target, eq_comm] using is
        subst same
        have donations : (m'.cpu c).donations = (m.cpu c).donations + 1 := by
          rw [← made]
          simpa using unsigned_of_lt small cfg
        have entry : (m'.cpu c).entry = (m.cpu c).entry := by simp [← made]
        have before : hop (Function.update m.callee (m.self c) (some e)) (m.cpu c).donations (m.cpu c).entry =
            some (m.self c) := hop_update (graph.ends _) chain _
        rw [donations, entry, callee, hop_succ, before]
        simp
      · have entry : (m'.cpu c).entry = (m.cpu c).entry := by simp [← made]
        rw [entry]
        exact donated.home c
  | @enter e f a d g pc reached cont runs =>
      have hops : hop m.callee d e = some f := (follow_eq_some reached).1
      refine donated.update (c := c) graph (fun _ _ => rfl) (fun c' ne => by simp [self, ne]) (fun x is => ?_) ?_
      · have same : x = f := by simpa [self, Pc.target, eq_comm] using is
        subst same
        simpa [unsigned_of_lt (Nat.le_of_lt (hop_lt graph hops)) cfg] using hops
      · have stands := graph.pc c
        rw [show m.view.pc c = _ from pc] at stands
        have home : cfg.cpu e = c := stands
        simpa using home
  | @look e f a d pc reached blocked =>
      have hops : hop m.callee d e = some f := (follow_eq_some reached).1
      refine donated.update (c := c) graph (fun _ _ => rfl) (fun c' ne => by simp [self, ne]) (fun x is => ?_) ?_
      · have same : x = f := by simpa [Pc.target, eq_comm] using is
        subst same
        simpa [unsigned_of_lt (Nat.le_of_lt (hop_lt graph hops)) cfg] using hops
      · have stands := graph.pc c
        rw [show m.view.pc c = _ from pc] at stands
        have home : cfg.cpu e = c := stands
        simpa using home
  | @unblocked e a i g pc cont runs =>
      refine donated.frame (c := c) graph (fun _ => rfl) (fun c' => by rw [field_setCpu Cpu.chain (by rfl)])
        (fun c' ne => by simp [self, ne]) fun x is => ?_
      rw [pc]
      simpa [self, Pc.target] using is
  | @wait e a i pc blocked =>
      refine donated.leave (c := c) graph (fun x => ?_) (fun c' => ?_) (fun c' ne => by simp [ne])
        (by cases a <;> simp [After.pc, Pc.target])
      · rw [after_ec, putQueue, setSc_ec, field_setEc Ec.callee (by rfl)]
      · cases a with
        | schedule => exact goto_chain _ _ c'
        | loop t => rw [after, field_setCpu Cpu.chain (by rfl), putQueue_cpu]
  | @retire f pc caller =>
      refine donated.leave (c := c) graph (fun x => ?_) (goto_chain _ _) (fun c' ne => by simp [self, ne]) (by simp [Pc.target])
      rw [retire_ec, field_setEc Ec.callee (by rfl)]
  | @donated a f g replies caller callee nonzero =>
      obtain ⟨d, donations, chain⟩ := donated.caller_on_chain graph (replies.target _) caller nonzero
      have unlinked := callee_unlinked (m := m) (c := c) a f (some g)
      refine donated.update (c := c) graph (fun e away => ?_) (fun c' ne => ?_) (fun e is => ?_) ?_
      · rw [setCpu_callee, unlinked, Function.update_of_ne]
        rintro rfl
        exact away ((graph.callee e (m.self c) callee).2.1.symm.trans (graph.home c))
      · simp [Machine.unlinked, self, ne]
      · have same : e = a := by simpa [self, Pc.target, eq_comm] using is
        subst same
        have kept : hop (Function.update m.callee e none) d (m.cpu c).entry = some e := hop_update (graph.ends _) chain none
        rw [setCpu_callee, unlinked]
        simpa [Machine.unlinked, donations, decrement] using kept
      · simpa [Machine.unlinked] using donated.home c
  | @helped a f h replies caller callee zero =>
      have unlinked := callee_unlinked (m := m) (c := c) a f h
      refine donated.update (c := c) graph (fun e away => ?_) (fun c' ne => ?_) (fun e is => ?_) ?_
      · rw [goto_callee, unlinked, Function.update_of_ne]
        rintro rfl
        exact away ((graph.callee e (m.self c) callee).2.1.symm.trans (graph.home c))
      · simp [Machine.unlinked, self, ne]
      · simp [Pc.target] at is
      · simpa [Machine.unlinked] using donated.home c
  | @finish i pc token =>
      exact donated.stay (c := c) graph (fun e => by rw [goto_ec, field_setEc Ec.callee (by rfl), setSm_ec]) (goto_chain _ _)
        (fun c' ne => by simp [ne]) (by rw [pc]; rfl) (by simp) (by simp [Pc.target])
  | @cancel s pc =>
      exact donated.stay (c := c) graph (fun e => by rw [goto_ec, field_setEc Ec.callee (by rfl)]) (goto_chain _ _)
        (fun c' ne => by simp [ne]) (by rw [pc]; rfl) (by simp) (by simp [Pc.target])
  | block pc =>
      refine donated.leave (c := c) graph (fun _ => rfl) (fun c' => ?_) (fun c' ne => by simp [ne]) (by simp [Pc.target])
      rw [goto_chain, charge, field_setCpu Cpu.chain (by rfl), setSc_cpu]
  | yield_ pc free home =>
      refine donated.leave (c := c) graph (fun _ => rfl) (fun c' => ?_) (fun c' ne => by simp [ne]) (by simp [Pc.target])
      rw [goto_chain, putReady, setSc_cpu, field_setCpu Cpu.chain (by rfl), charge, field_setCpu Cpu.chain (by rfl), setSc_cpu]
  | @dispatch t s rest pc head armed home =>
      refine donated.leave (c := c) graph (fun _ => rfl) (fun c' => ?_) (fun c' ne => by simp [ne]) (by simp [Pc.target])
      rw [pick, field_setCpu Cpu.chain (by rfl), setSc_cpu]
  | @wake e back s rest pc head =>
      refine donated.stay (c := c) graph (fun x => ?_) (fun c' => ?_) (fun c' ne => by simp) (by rw [pc]; rfl) (by simp)
        (by simp [pc, Pc.target])
      · rw [put_ec, takeQueue, setSc_ec, field_setEc Ec.callee (by rfl)]
      · rw [put_chain]
        rfl
  | @requeue t back s rest pc head home =>
      refine donated.stay (c := c) graph (fun x => rfl) (fun c' => ?_) (fun c' ne => by simp) (by rw [pc]; rfl) (by simp)
        (by simp [pc, Pc.target])
      rw [putReady, setSc_cpu, field_setCpu Cpu.chain (by rfl), takeRelease, setSc_cpu, field_setCpu Cpu.chain (by rfl)]
  | @create s p creates new bound =>
      refine donated.stay (c := c) graph (fun x => by simp) (fun c' => ?_) (fun c' ne => ?_) ?_ ?_ ?_
      · rw [goto_chain, put_chain]
      · rw [goto_self, put_self, goto_pc, if_neg ne, pc_put]
        exact ⟨rfl, rfl⟩
      · cases creates with
        | hypercall pc => rw [pc]; rfl
        | root pc => rw [pc]; rfl
      · rw [goto_self, put_self]
        rfl
      · rw [goto_pc, if_pos rfl]
        cases creates <;> exact Or.inl rfl
  | @take i zero pc positive =>
      exact donated.stay (c := c) graph (fun e => by rw [goto_ec, field_setEc Ec.callee (by rfl), setSm_ec]) (goto_chain _ _)
        (fun c' ne => by simp [ne]) (by rw [pc]; rfl) (by simp) (by simp [Pc.target])
  | @suspend i timed pc utcb zero =>
      exact donated.stay (c := c) graph (fun e => by rw [goto_ec, field_setEc Ec.callee (by rfl), setSm_ec]) (goto_chain _ _)
        (fun c' ne => by simp [ne]) (by rw [pc]; rfl) (by simp) (by simp [Pc.target])
  | @sleep i timed episode pc blocked free =>
      refine donated.leave (c := c) graph (fun x => ?_) (goto_chain _ _) (fun c' ne => by simp [ne]) (by simp [Pc.target])
      rw [goto_ec, field_setEc Ec.callee (by cases timed <;> rfl), putQueue, setSc_ec, field_setEc Ec.callee (by rfl)]
  | @count i back raises empty below =>
      exact donated.stay (c := c) graph (fun _ => rfl) (goto_chain _ _) (fun c' ne => by simp [ne]) (raises.target _) (by simp)
        (by simp [target_back])
  | @release i back e rest raises head =>
      exact donated.stay (c := c) graph (fun e => by rw [goto_ec, field_setEc Ec.callee (by rfl), setSm_ec]) (goto_chain _ _)
        (fun c' ne => by simp [ne]) (raises.target _) (by simp) (by simp [Pc.target])
  | @stale x back e i enabled set home awake =>
      exact donated.stay (c := c) graph (fun e => by rw [goto_ec, field_setEc Ec.callee (by rfl)]) (goto_chain _ _)
        (fun c' ne => by simp [ne]) (target_of_resume enabled _) (by simp) (by simp [target_back])
  | @timeout x back e i enabled set home blocked member =>
      exact donated.stay (c := c) graph (fun e => by rw [goto_ec, field_setEc Ec.callee (by rfl), setSm_ec]) (goto_chain _ _)
        (fun c' ne => by simp [ne]) (target_of_resume enabled _) (by simp) (by simp [Pc.target])
  | @sched x back armed enabled kept =>
      exact donated.stay (c := c) graph (fun _ => rfl) (fun c' => by rw [field_setCpu Cpu.chain (by rfl)])
        (fun c' ne => by simp [self, ne]) (target_of_resume enabled _) (by simp [self]) (by simp [target_back])

theorem donated_init (cfg : Config n k) (root : Option (Fin n)) (vm : Msg) (count : Nat → Nat) :
    Donated cfg (init cfg root vm count) :=
  ⟨fun _ _ is => is, cfg.idle_cpu⟩

end Machine

end Nova.Kernel.Contexts
