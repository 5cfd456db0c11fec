import MulticoreSim.Library.Machine
import MulticoreSim.Coherence.Agent
import MulticoreSim.Coherence.DirectoryTick

/-! # Nodes and network

CPU nodes, each a CPU port over a table of agents, and one directory node. The
ring is taken as what it is relied on for: a queue between any two nodes that
keeps their messages in order and hands them over at any pace.

Both halves of a node's cycle are actions of their own. The order of the nodes
within a cycle and the arrival of messages are free; a node's two halves
alternate.
-/

namespace Coherence

/-- One coherence protocol: its agents, and its half of the directory. -/
structure ProtocolFsm where
  AgentState : Type
  initial : AgentState
  processProcRequest : AgentState → MessageKind → Except String (AgentStep AgentState)
  processNtwkRequest : AgentState → MessageKind → Except String (AgentStep AgentState)
  handle : Settings → DirEntry → Message → Except String Outcome
  /-- The response half looks at `send_E`. -/
  usesE : Bool

def mi : ProtocolFsm where
  AgentState := MiState
  initial := .I
  processProcRequest := MiState.processProcRequest
  processNtwkRequest := MiState.processNtwkRequest
  handle := miHandle
  usesE := false

def msi : ProtocolFsm where
  AgentState := MsiState
  initial := .I
  processProcRequest := MsiState.processProcRequest
  processNtwkRequest := MsiState.processNtwkRequest
  handle := msiHandle
  usesE := false

def mesi : ProtocolFsm where
  AgentState := MesiState
  initial := .I
  processProcRequest := MesiState.processProcRequest
  processNtwkRequest := MesiState.processNtwkRequest
  handle := mesiHandle
  usesE := true

def mosi : ProtocolFsm where
  AgentState := MosiState
  initial := .I
  processProcRequest := MosiState.processProcRequest
  processNtwkRequest := MosiState.processNtwkRequest
  handle := mosiHandle
  usesE := false

def moesif : ProtocolFsm where
  AgentState := MoesifState
  initial := .I
  processProcRequest := MoesifState.processProcRequest
  processNtwkRequest := MoesifState.processNtwkRequest
  handle := moesifHandle
  usesE := true

/-- `make_agent_factory` and the dispatch of `DirectoryController::tick`. -/
def Protocol.fsm : Protocol → ProtocolFsm
  | .MI => mi
  | .MSI => msi
  | .MESI => mesi
  | .MOSI => mosi
  | .MOESIF => moesif

/-! ## CPU ports -/

/-- What a port does to its surroundings in one call. -/
structure PortStep (State : Type) where
  state : State
  /-- `my_cache->cpu_in_next` afterwards. -/
  cpuInNext : Option Message
  /-- Pushed on the node's `ntwk_out_next`. -/
  sends : List Message := []
  stats : CoherenceStats → CoherenceStats := id

/-- A `CpuPort`: what sits between an agent table and whatever runs programs.
    `Event` is what the port's own side may do between two cycles of the node. -/
structure CpuPort where
  State : Type
  Event : Type
  tick : Settings → NodeId → State → Option Message → PortStep State
  tock : State → State
  onNtwkEvent : Settings → State → Message → State
  /-- `cache_in_next = data`. -/
  deposit : State → Message → State
  /-- `none` where the port's side cannot take the step. -/
  external : Settings → NodeId → State → Option Message → Event → Option (PortStep State)

variable (F : ProtocolFsm) (π : CpuPort)

/-- A CPU node: the port, and the `coherence::Cache` with its four mailboxes. -/
structure CpuNode where
  cpu : π.State
  cpuInNext : Option Message := none
  cpuIn : Option Message := none
  ntwkInNext : Option Message := none
  ntwkIn : Option Message := none
  agents : BlockId → F.AgentState := fun _ => F.initial
  ntwkOutNext : List Message := []

variable {F π}

namespace CpuNode

/-- An agent's step: its state, its message and its answer to the processor. -/
def apply (n : CpuNode F π) (s : Settings) (id : NodeId) (block : BlockId)
    (a : AgentStep F.AgentState) : CpuNode F π :=
  { n with
    agents := Function.update n.agents block a.state
    ntwkOutNext := n.ntwkOutNext ++
      (a.toDir.map fun k => Message.make id s.numProcs block k s).toList
    cpu := if a.toProc then π.deposit n.cpu (Message.make id id block .data s) else n.cpu }

def countMiss {State : Type} (a : AgentStep State) (st : CoherenceStats) : CoherenceStats :=
  if a.miss then { st with cacheMisses := st.cacheMisses + 1 } else st

/-- The processor half of `Cache::tick`. -/
def tickProc (n : CpuNode F π) (s : Settings) (id : NodeId) (st : CoherenceStats) :
    Except String (CpuNode F π × CoherenceStats) :=
  match n.cpuIn with
  | none => .ok (n, st)
  | some m =>
      match F.processProcRequest (n.agents m.block) m.kind with
      | .error what => .error what
      | .ok a => .ok ({ n.apply s id m.block a with cpuIn := none }, countMiss a st)

/-- The network half of `Cache::tick`. -/
def tickNtwk (n : CpuNode F π) (s : Settings) (id : NodeId) (st : CoherenceStats) :
    Except String (CpuNode F π × CoherenceStats) :=
  match n.ntwkIn with
  | none => .ok (n, st)
  | some m =>
      match F.processNtwkRequest (n.agents m.block) m.kind with
      | .error what => .error what
      | .ok a =>
          let n := n.apply s id m.block a
          .ok ({ n with cpu := π.onNtwkEvent s n.cpu m, ntwkIn := none }, countMiss a st)

/-- The call of a port. -/
def portStep (n : CpuNode F π) (p : PortStep π.State) : CpuNode F π :=
  { n with
    cpu := p.state
    cpuInNext := p.cpuInNext
    ntwkOutNext := n.ntwkOutNext ++ p.sends }

/-- `Node::tick` up to the network: the port, then the agents. -/
def tick (n : CpuNode F π) (s : Settings) (id : NodeId) (st : CoherenceStats) :
    Except String (CpuNode F π × CoherenceStats) :=
  let p := π.tick s id n.cpu n.cpuInNext
  match (n.portStep p).tickProc s id (p.stats st) with
  | .error what => .error what
  | .ok (n, st) => n.tickNtwk s id st

/-- `Node::tock` without the queues. -/
def tock (n : CpuNode F π) : CpuNode F π :=
  { n with
    cpu := π.tock n.cpu
    cpuIn := n.cpuInNext.or n.cpuIn
    cpuInNext := none
    ntwkIn := n.ntwkInNext.or n.ntwkIn
    ntwkInNext := none
    ntwkOutNext := [] }

end CpuNode

/-! ## The whole network -/

variable (F π)

structure System where
  cpus : NodeId → CpuNode F π
  dir : DirectoryController
  /-- Sent by the first node, not yet handed to the second. -/
  chan : NodeId → NodeId → List Message := fun _ _ => []
  /-- The node has ticked in this cycle and not yet tocked. -/
  ticked : NodeId → Bool := fun _ => false
  clock : Timestamp := 0
  stats : CoherenceStats := {}

variable {F π}

inductive Action (π : CpuPort) where
  /-- `Node::tick` of a CPU node. -/
  | tick (i : NodeId)
  /-- `Node::tock` of a CPU node. -/
  | tock (i : NodeId)
  /-- A message arrives in `ntwk_in_next`. -/
  | deliver (i : NodeId)
  /-- The port's own side acts, before the node ticks. -/
  | external (i : NodeId) (event : π.Event)
  | dirTick
  | dirTock
  /-- A message arrives in `request_next`. -/
  | dirDeliver (src : NodeId)

inductive Fault where
  /-- A handler throws, which ends the run. -/
  | throws (what : String)
  /-- Not the time for this action. -/
  | disabled
  deriving DecidableEq, Repr

namespace System

/-- Hand the messages pushed by `src` to the channels. -/
def send (chan : NodeId → NodeId → List Message) (src : NodeId) (out : List Message) :
    NodeId → NodeId → List Message :=
  Function.update chan src fun dst => chan src dst ++ out.filter (·.dst = dst)

/-- The directory's half of `MI_tick` … `MOESIF_tick` that reads the queue. -/
def processQueue (F : ProtocolFsm) (s : Settings) (d : DirectoryController) (st : CoherenceStats) :
    Except String (DirectoryController × CoherenceStats) :=
  if d.requestInProgress then .ok (d, st)
  else match d.requestQueue with
    | [] => .ok (d, st)
    | r :: rest =>
        let entry := d.directory r.block
        match handleWriteback entry r with
        | some o => .ok (d.carryOut s st r rest o)
        | none =>
            match F.handle s entry r with
            | .error what => .error what
            | .ok o => .ok (d.carryOut s st r rest o)

/-- `DirectoryController::tick`. -/
def tickDir (F : ProtocolFsm) (s : Settings) (d : DirectoryController) (clock : Timestamp)
    (st : CoherenceStats) : Except String (DirectoryController × CoherenceStats) :=
  match processQueue F s { d with currentClock := clock } st with
  | .error what => .error what
  | .ok (d, st) => .ok (d.respond s F.usesE st)

def step (s : Settings) (σ : System F π) : Action π → Except Fault (System F π)
  | .tick i =>
      if i < s.numProcs ∧ σ.ticked i = false then
        match (σ.cpus i).tick s i σ.stats with
        | .error what => .error (.throws what)
        | .ok (n, st) =>
            .ok
              { σ with
                cpus := Function.update σ.cpus i n
                ticked := Function.update σ.ticked i true
                stats := st }
      else .error .disabled
  | .tock i =>
      if i < s.numProcs ∧ σ.ticked i = true then
        .ok
          { σ with
            cpus := Function.update σ.cpus i (σ.cpus i).tock
            chan := send σ.chan i (σ.cpus i).ntwkOutNext
            ticked := Function.update σ.ticked i false }
      else .error .disabled
  | .deliver i =>
      if i < s.numProcs ∧ σ.ticked i = true ∧ (σ.cpus i).ntwkInNext = none then
        match σ.chan s.numProcs i with
        | [] => .error .disabled
        | m :: rest =>
            .ok
              { σ with
                cpus := Function.update σ.cpus i { σ.cpus i with ntwkInNext := some m }
                chan := Function.update σ.chan s.numProcs
                  (Function.update (σ.chan s.numProcs) i rest) }
      else .error .disabled
  | .external i event =>
      if i < s.numProcs ∧ σ.ticked i = false then
        match π.external s i (σ.cpus i).cpu (σ.cpus i).cpuInNext event with
        | none => .error .disabled
        | some p =>
            .ok
              { σ with
                cpus := Function.update σ.cpus i ((σ.cpus i).portStep p)
                stats := p.stats σ.stats }
      else .error .disabled
  | .dirTick =>
      if σ.ticked s.numProcs = false then
        match tickDir F s σ.dir σ.clock σ.stats with
        | .error what => .error (.throws what)
        | .ok (d, st) =>
            .ok { σ with dir := d, ticked := Function.update σ.ticked s.numProcs true, stats := st }
      else .error .disabled
  | .dirTock =>
      if σ.ticked s.numProcs = true then
        .ok
          { σ with
            dir := { σ.dir.tock with ntwkOutNext := [] }
            chan := send σ.chan s.numProcs σ.dir.ntwkOutNext
            ticked := Function.update σ.ticked s.numProcs false
            clock := σ.clock + 1 }
      else .error .disabled
  | .dirDeliver src =>
      if src < s.numProcs ∧ σ.ticked s.numProcs = true then
        match σ.chan src s.numProcs with
        | [] => .error .disabled
        | m :: rest =>
            .ok
              { σ with
                dir := { σ.dir with requestNext := σ.dir.requestNext ++ [m] }
                chan := Function.update σ.chan src
                  (Function.update (σ.chan src) s.numProcs rest) }
      else .error .disabled

/-- What an action does to the node `i`. -/
inductive NodeStep (s : Settings) (σ : System F π) (i : NodeId) : Action π → CpuNode F π → Prop where
  /-- The action is about something else. -/
  | idle {a : Action π} : NodeStep s σ i a (σ.cpus i)
  | tick {n : CpuNode F π} {st : CoherenceStats} :
      (σ.cpus i).tick s i σ.stats = .ok (n, st) → NodeStep s σ i (.tick i) n
  | tock : NodeStep s σ i (.tock i) (σ.cpus i).tock
  | deliver (m : Message) : NodeStep s σ i (.deliver i) { σ.cpus i with ntwkInNext := some m }
  | external {event : π.Event} {p : PortStep π.State} :
      π.external s i (σ.cpus i).cpu (σ.cpus i).cpuInNext event = some p →
        NodeStep s σ i (.external i event) ((σ.cpus i).portStep p)

theorem node_step {s : Settings} {σ σ' : System F π} {a : Action π} (step : σ.step s a = .ok σ')
    (i : NodeId) : NodeStep s σ i a (σ'.cpus i) := by
  have moved {j : NodeId} {n : CpuNode F π} (cpus : σ'.cpus = Function.update σ.cpus j n)
      (here : NodeStep s σ j a n) : NodeStep s σ i a (σ'.cpus i) := by
    rw [cpus]
    by_cases eq : i = j
    · subst eq
      rwa [Function.update_self]
    · rw [Function.update_of_ne eq]
      exact .idle
  cases a with
  | tick j =>
      simp only [System.step] at step
      split at step
      · split at step
        · cases step
        · next n st ticked =>
            cases step
            exact moved rfl (.tick ticked)
      · cases step
  | tock j =>
      simp only [System.step] at step
      split at step
      · cases step
        exact moved rfl .tock
      · cases step
  | deliver j =>
      simp only [System.step] at step
      split at step
      · split at step
        · cases step
        · next m rest _ =>
            cases step
            exact moved rfl (.deliver m)
      · cases step
  | external j event =>
      simp only [System.step] at step
      split at step
      · split at step
        · cases step
        · next p called =>
            cases step
            exact moved rfl (.external called)
      · cases step
  | dirTick =>
      simp only [System.step] at step
      split at step
      · split at step
        · cases step
        · cases step
          exact .idle
      · cases step
  | dirTock =>
      simp only [System.step] at step
      split at step
      · cases step
        exact .idle
      · cases step
  | dirDeliver src =>
      simp only [System.step] at step
      split at step
      · split at step
        · cases step
        · cases step
          exact .idle
      · cases step

/-- The network of `F` under the settings, as a machine. -/
def machine (F : ProtocolFsm) (π : CpuPort) (s : Settings) : Machine (System F π) (Action π) Fault :=
  ⟨step s⟩

/-- Before the first cycle, over the given port states. -/
def initial (F : ProtocolFsm) (π : CpuPort) (s : Settings) (cpu : NodeId → π.State) : System F π :=
  { cpus := fun i => { cpu := cpu i }
    dir := DirectoryController.make s }

end System

end Coherence
