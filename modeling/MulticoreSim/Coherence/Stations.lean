import MulticoreSim.Coherence.Closure

/-! # One request at a time

In coherence mode a CPU's request is in one place: in one of the mailboxes
between the CPU and its agents, or with the one agent that waits for the
directory. So no agent is asked twice, and nothing throws.
-/

namespace Coherence

open DirectoryProtocol

variable {F : ProtocolFsm} {s : Settings} {i : NodeId} {b : BlockId} {n : CpuNode F ficiPort}
  {L : AgentLaws F}

/-- Where a CPU's request is, as seen from its node. -/
inductive Station where
  | idle
  /-- In `cpu_in_next`. -/
  | issued (request : Message)
  /-- In `cpu_in`. -/
  | arrived (request : Message)
  /-- With the agent of the block. -/
  | asked (block : BlockId)
  /-- Answered, in `cache_in_next`. -/
  | answered (data : Message)
  /-- Answered, in `cache_in`. -/
  | returned (data : Message)

namespace Station

def cpuInNext : Station → Option Message
  | .issued m => some m
  | _ => none

def cpuIn : Station → Option Message
  | .arrived m => some m
  | _ => none

def cacheInNext : Station → Option Message
  | .answered m => some m
  | _ => none

def cacheIn : Station → Option Message
  | .returned m => some m
  | _ => none

def Awaits : Station → BlockId → Prop
  | .asked b, b' => b' = b
  | _, _ => False

/-- The mailboxes and agents of a node show where its CPU's request is. -/
structure At (L : AgentLaws F) (n : CpuNode F ficiPort) (t : Station) : Prop where
  outstanding : FiciCpu.outstanding n.cpu = true ↔ t ≠ .idle
  cpuInNext : n.cpuInNext = t.cpuInNext
  cpuIn : n.cpuIn = t.cpuIn
  cacheInNext : FiciCpu.cacheInNext n.cpu = t.cacheInNext
  cacheIn : FiciCpu.cacheIn n.cpu = t.cacheIn
  agents : ∀ b, (L.view (n.agents b)).want ≠ .nothing ↔ t.Awaits b
  request : ∀ m, t = .issued m ∨ t = .arrived m → m.kind = .load ∨ m.kind = .store

variable {t : Station}

theorem At.initial (L : AgentLaws F) (instrs : List Instruction) :
    At (F := F) L { cpu := FiciCpu.load instrs } .idle := by
  constructor <;>
    simp [FiciCpu.load, Station.cpuInNext, Station.cpuIn, Station.cacheInNext, Station.cacheIn, Awaits,
      L.view_initial]

/-- An agent that waits for nothing answers its processor or begins to wait. -/
theorem At.asks {m : Message} (here : At L n (.arrived m)) (s : Settings) (i : NodeId)
    (st : CoherenceStats) :
    ∃ x, n.tickProc s i st = .ok x ∧ ∃ t, At L x.1 t := by
  have rest : (L.view (n.agents m.block)).want = .nothing := by
    by_contra waits
    exact (here.agents m.block).mp waits
  obtain ⟨a, answer⟩ := L.answersProc _ _ rest (here.request m (.inr rfl))
  refine ⟨({ n.apply s i m.block a with cpuIn := none }, CpuNode.countMiss a st), ?_, ?_⟩
  · simp only [CpuNode.tickProc, here.cpuIn, Station.cpuIn, answer]
  obtain ⟨-, ⟨-, toProc, view, -⟩ | ⟨q, -, toProc, view, -⟩⟩ := L.proc _ _ _ answer
  · refine ⟨.answered (Message.make i i m.block .data s), ?_⟩
    constructor
    case agents =>
      intro b
      simp only [CpuNode.apply, Function.update_apply]
      split
      · next eq => simp [view, rest, Awaits]
      · exact here.agents b
    all_goals simp [CpuNode.apply, toProc, ficiPort, here.cpuInNext, here.cacheIn, here.outstanding,
      Station.cpuInNext, Station.cpuIn, Station.cacheInNext, Station.cacheIn]
  · refine ⟨.asked m.block, ?_⟩
    constructor
    case agents =>
      intro b
      simp only [CpuNode.apply, Function.update_apply]
      split
      · next eq => cases q <;> simp [view, eq, Awaits, Request.want]
      · next ne => simpa [Awaits, ne] using here.agents b
    all_goals simp [CpuNode.apply, toProc, here.cpuInNext, here.cacheIn, here.cacheInNext,
      here.outstanding, Station.cpuInNext, Station.cpuIn, Station.cacheInNext, Station.cacheIn]

theorem At.tickProc (here : At L n t) (s : Settings) (i : NodeId) (st : CoherenceStats) :
    ∃ x, n.tickProc s i st = .ok x ∧ ∃ t, At L x.1 t := by
  cases t with
  | arrived m => exact here.asks s i st
  | idle | issued m | asked b | answered m | returned m =>
      exact ⟨(n, st), by simp only [CpuNode.tickProc, here.cpuIn, Station.cpuIn], _, here⟩

/-- Only an agent that waits takes a grant; other messages leave the CPU alone. -/
theorem At.tickNtwk (here : At L n t) {x : CpuNode F ficiPort} {st st' : CoherenceStats}
    (step : n.tickNtwk s i st = .ok (x, st')) : ∃ t, At L x t := by
  unfold CpuNode.tickNtwk at step
  split at step
  · cases step
    exact ⟨t, here⟩
  · next m arrived =>
      split at step
      · cases step
      · next a answer =>
          cases step
          rcases L.ntwk _ _ _ answer with ⟨g, -, waits, -, toProc, view⟩ | ⟨toProc, spec⟩
          · have awaits := (here.agents m.block).mp waits
            cases t with
            | asked block =>
                cases awaits
                refine ⟨.answered (Message.make i i m.block .data s), ?_⟩
                constructor
                case agents =>
                  intro b
                  simp only [CpuNode.apply, Function.update_apply]
                  split
                  · next eq => simp [view, Awaits]
                  · next ne => simpa [Awaits, ne] using here.agents b
                all_goals simp [CpuNode.apply, toProc, ficiPort, here.cpuInNext, here.cpuIn,
                  here.cacheIn, here.outstanding, Station.cpuInNext, Station.cpuIn,
                  Station.cacheInNext, Station.cacheIn]
            | idle | issued m | arrived m | answered m | returned m => exact awaits.elim
          · have view : (L.view a.state).want = (L.view (n.agents m.block)).want := by
              rcases spec with ⟨-, -, -, view⟩ | ⟨-, -, -, view⟩ | ⟨-, -, -, -, view⟩ | ⟨-, -, -, -, view⟩ <;>
                rw [view]
            refine ⟨t, ?_⟩
            constructor
            case agents =>
              intro b
              simp only [CpuNode.apply, Function.update_apply]
              split
              · next eq =>
                  rw [view, eq]
                  exact here.agents m.block
              · exact here.agents b
            case request => exact here.request
            all_goals simp [CpuNode.apply, toProc, ficiPort, here.cpuInNext, here.cpuIn,
              here.cacheIn, here.cacheInNext, here.outstanding]

/-- The CPU takes its answer in. -/
theorem At.receive (here : At L n t) : ∃ t, At L { n with cpu := FiciCpu.receive n.cpu } t := by
  have cacheIn := here.cacheIn
  cases t with
  | returned m =>
      refine ⟨.idle, ?_⟩
      constructor
      case agents => exact here.agents
      all_goals simp [FiciCpu.receive, cacheIn, here.cpuInNext, here.cpuIn, here.cacheInNext,
        Station.cpuInNext, Station.cpuIn, Station.cacheInNext, Station.cacheIn]
  | idle | issued m | arrived m | asked b | answered m =>
      have same : FiciCpu.receive n.cpu = n.cpu := by
        unfold FiciCpu.receive
        rw [cacheIn]
        rfl
      rw [same]
      exact ⟨_, here⟩

/-- A CPU with no request outstanding may issue the next. -/
theorem At.portStep (here : At L n t) (s : Settings) (i : NodeId) :
    ∃ t, At L (n.portStep (n.called s i)) t := by
  obtain ⟨t', taken⟩ := here.receive
  simp only [CpuNode.called, ficiPort, FiciCpu.tick]
  split
  · exact ⟨t', taken.outstanding, taken.cpuInNext, taken.cpuIn, taken.cacheInNext, taken.cacheIn,
      taken.agents, taken.request⟩
  · next free =>
      have idle : t' = .idle := by
        by_contra busy
        have := taken.outstanding.mpr busy
        simp_all
      split
      · exact ⟨t', taken.outstanding, taken.cpuInNext, taken.cpuIn, taken.cacheInNext,
          taken.cacheIn, taken.agents, taken.request⟩
      · next inst _ =>
          subst idle
          refine ⟨.issued (Message.make i i (inst.block s) inst.kind s), ?_⟩
          constructor
          case agents => exact taken.agents
          case request =>
            rintro m (eq | eq) <;> cases eq
            simp only [Message.make_kind, Instruction.kind]
            split <;> simp
          case cacheInNext => exact taken.cacheInNext
          case cacheIn => exact taken.cacheIn
          all_goals simp [CpuNode.portStep, taken.cpuIn, Station.cpuInNext, Station.cpuIn]

theorem At.tock (here : At L n t) : ∃ t, At L n.tock t := by
  cases t with
  | issued m =>
      refine ⟨.arrived m, ?_⟩
      constructor
      case agents => exact here.agents
      case request =>
        rintro m' (eq | eq) <;> cases eq
        exact here.request m (.inl rfl)
      all_goals simp [CpuNode.tock, ficiPort, FiciCpu.tock, here.outstanding, here.cpuInNext, here.cpuIn,
        here.cacheIn, here.cacheInNext, Station.cpuInNext, Station.cpuIn, Station.cacheInNext,
        Station.cacheIn]
  | answered m =>
      refine ⟨.returned m, ?_⟩
      constructor
      case agents => exact here.agents
      all_goals simp [CpuNode.tock, ficiPort, FiciCpu.tock, here.outstanding, here.cpuInNext, here.cpuIn,
        here.cacheInNext, Station.cpuInNext, Station.cpuIn, Station.cacheInNext, Station.cacheIn]
  | idle | arrived m | asked b | returned m =>
      have cacheInNext := here.cacheInNext
      have same : FiciCpu.tock n.cpu = n.cpu := by
        unfold FiciCpu.tock
        rw [cacheInNext]
        rfl
      have kept : ficiPort.tock n.cpu = n.cpu := same
      refine ⟨_, by rw [CpuNode.tock, kept]; exact here.outstanding, rfl, ?_, ?_, ?_, here.agents,
        here.request⟩
      · simp [CpuNode.tock, here.cpuInNext, here.cpuIn, Station.cpuInNext]
      · rw [CpuNode.tock, kept]
        exact here.cacheInNext
      · rw [CpuNode.tock, kept]
        exact here.cacheIn

end Station

/-! ## Runs -/

/-- An action moves each CPU's request from one place to the next. -/
theorem Station.At.step {σ σ' : System F ficiPort} {a : Action ficiPort}
    (here : ∃ t, Station.At L (σ.cpus i) t) (step : σ.step s a = .ok σ') :
    ∃ t, Station.At L (σ'.cpus i) t := by
  obtain ⟨t, here⟩ := here
  have moved := System.node_step step i
  generalize σ'.cpus i = n at moved
  cases moved with
  | idle => exact ⟨t, here⟩
  | tick ticked =>
      unfold CpuNode.tick at ticked
      simp only at ticked
      split at ticked
      · cases ticked
      · next n₁ st₁ answered =>
          obtain ⟨t₁, called⟩ := here.portStep s i
          obtain ⟨x, answered', t₂, asked⟩ := called.tickProc s i
            (((σ.cpus i).called s i).stats σ.stats)
          cases answered'.symm.trans answered
          exact asked.tickNtwk ticked
  | tock => exact here.tock
  | deliver m =>
      exact ⟨t, here.outstanding, here.cpuInNext, here.cpuIn, here.cacheInNext, here.cacheIn, here.agents,
        here.request⟩
  | external called => exact Empty.elim ‹_›

/-- Without evictions: every CPU's request is in one place, every line is closed and no round
    waits for nobody. -/
structure Settled (L : Laws F) (σ : System F ficiPort) (lines : BlockId → Block NodeId) : Prop where
  stations : ∀ i, ∃ t, Station.At L.toAgentLaws (σ.cpus i) t
  closed : ∀ b, (lines b).Closed L.profile
  live : ∀ b, (lines b).Live ∧ (lines b).Untrapped

/-- A trace-driven CPU gives nothing up. -/
theorem Chosen.keeps {L : Laws F} {R : FiciCpu → BlockId → Prop} {σ : System F ficiPort}
    {X : Block NodeId} {e : Event NodeId} {a : Action ficiPort}
    (chosen : Chosen (π := ficiPort) L R s σ b X e a) : e.Keeps := by
  cases a with
  | tick i =>
      rcases chosen with ⟨-, ⟨m, mem, -⟩, -⟩ | ⟨-, -, m, a, -, -, -, ⟨⟨q, rfl⟩, -⟩ | ⟨rfl, -⟩⟩ | takes
      · have none : ((σ.cpus i).called s i).sends = [] := FiciCpu.tick_sends _ s i _
        rw [none] at mem
        cases mem
      · trivial
      · trivial
      · cases e <;> first | exact takes.elim | trivial
  | external i event => exact event.elim
  | dirTick =>
      rcases chosen with ⟨i, g, rfl⟩ | ⟨r, rest, Y, -, -, -, -, legal⟩
      · trivial
      · cases e <;> first | trivial | cases legal.2.1
  | tock i | deliver i | dirTock | dirDeliver src => exact chosen.elim

/-- Every coherence-mode run shows closed lines and one place for every request. -/
theorem settled_run (L : Laws F) (small : s.numProcs ≤ kMaxSharers)
    {traces : NodeId → List Instruction} {σ : System F ficiPort}
    (reached : (System.machine F ficiPort s).Reachable (coherenceMode F s traces) σ) :
    ∃ lines, Shows L (fun _ _ => False) s σ lines ∧ Settled L σ lines := by
  refine Shows.run (L := L) (I := Settled L) fici_laws small (fun _ _ _ => id)
    (fun σ _ a _ _ _ => tidy_of_none σ a)
    ⟨fun i => ⟨.idle, .initial L.toAgentLaws (traces i)⟩,
      fun _ => Block.Closed.initial L.profile,
      fun _ => ⟨Block.Live.initial, Block.Untrapped.initial⟩⟩ ?_
    reached
  intro σ lines a σ' lines' shows settled _ step advances _
  refine ⟨fun i => Station.At.step (settled.stations i) step, fun b => ?_, fun b => ?_⟩
  · exact (advances b).steps.closed (fun _ _ => Chosen.event) (fun _ _ => Chosen.keeps)
      (shows.abs b).inv (shows.abs b).within (settled.closed b)
  · have fed : Fed L s σ a := by
      cases a with
      | dirTick =>
          intro r rest free queue
          exact L.fed ((shows.abs r.block).meets shows.net small free queue) (settled.closed r.block)
      | tick i | tock i | deliver i | external i event | dirTock | dirDeliver src => trivial
    exact (advances b).live fed (shows.abs b).inv (settled.live b).1 (settled.live b).2

/-- No agent and no directory handler throws in coherence mode. -/
theorem coherenceMode_silent (L : Laws F) (small : s.numProcs ≤ kMaxSharers)
    {traces : NodeId → List Instruction} {σ : System F ficiPort}
    (reached : (System.machine F ficiPort s).Reachable (coherenceMode F s traces) σ)
    (a : Action ficiPort) : σ.thrown s a = none := by
  obtain ⟨lines, shows, settled⟩ := settled_run L small reached
  cases thrown : σ.thrown s a with
  | none => rfl
  | some what =>
      refine absurd ?_ (System.thrown_proc thrown ?_ (shows.dirAnswered small))
      · intro i _ st
        obtain ⟨t, here⟩ := settled.stations i
        obtain ⟨t', called⟩ := here.portStep s i
        obtain ⟨x, answered, -⟩ := called.tickProc s i st
        exact ⟨x, answered⟩
      · exact shows.closed fici_laws (fun i => tidy_of_none σ (.tick i))
          (fun _ _ _ _ => Chosen.keeps) settled.closed

end Coherence
