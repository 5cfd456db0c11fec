import Mathlib.Tactic.MkIffOfInductiveProp
import MulticoreSim.Coherence.FullMode

/-! # A first miss

What becomes of the first request of a node with nothing under way: it reaches the
directory, which answers out of memory, and the answer reaches the port. Cores whose
L1 has no MSHR slots never get that far.
-/

namespace Coherence

open Memory

/-! ## To the directory -/

/-- Nothing of the node or in the directory is under way. -/
structure Idle {F : ProtocolFsm} {π : CpuPort} (s : Settings) (σ : System F π) (i : NodeId) :
    Prop where
  node : σ.ticked i = false
  dir : σ.ticked s.numProcs = false
  cpuIn : (σ.cpus i).cpuIn = none
  ntwkIn : (σ.cpus i).ntwkIn = none
  ntwkInNext : (σ.cpus i).ntwkInNext = none
  out : (σ.cpus i).ntwkOutNext = []
  up : σ.chan i s.numProcs = []
  down : σ.chan s.numProcs i = []
  free : σ.dir.requestInProgress = false
  queue : σ.dir.requestQueue = []
  next : σ.dir.requestNext = []
  quiet : σ.dir.ntwkOutNext = []
  sendE : σ.dir.sendE = false

/-- Request `r` of node `i` is the first in the directory's queue, and nothing else of the
    node is under way. -/
@[mk_iff] structure Queued {F : ProtocolFsm} {π : CpuPort} (s : Settings) (σ : System F π) (i : NodeId)
    (st : π.State) (agents : BlockId → F.AgentState) (r : Message) : Prop where
  node : σ.ticked i = false
  dir : σ.ticked s.numProcs = false
  cpu : σ.cpus i = { cpu := st, agents }
  down : σ.chan s.numProcs i = []
  free : σ.dir.requestInProgress = false
  queue : σ.dir.requestQueue = [r]
  next : σ.dir.requestNext = []
  quiet : σ.dir.ntwkOutNext = []
  sendE : σ.dir.sendE = false

section

variable {F : ProtocolFsm} {π : CpuPort} {s : Settings} {σ : System F π} {i : NodeId}

/-- What the port of an idle node asks for reaches the directory. -/
theorem Idle.asks (idle : Idle s σ i) (bound : i < s.numProcs) {m : Message} {k : MessageKind}
    {p q : PortStep π.State} {a : AgentStep F.AgentState}
    (called : π.tick s i (σ.cpus i).cpu (σ.cpus i).cpuInNext = p) (asked : p.cpuInNext = some m)
    (silent : p.sends = []) (again : π.tick s i (π.tock p.state) none = q) (silent' : q.sends = [])
    (waits : q.cpuInNext = none)
    (answer : F.processProcRequest ((σ.cpus i).agents m.block) m.kind = .ok a)
    (toDir : a.toDir = some k) (toProc : a.toProc = false) :
    ∃ σ', (System.machine F π s).Reachable σ σ' ∧
      Queued s σ' i (π.tock q.state) (Function.update (σ.cpus i).agents m.block a.state)
        (Message.make i s.numProcs m.block k s) ∧
      σ'.dir.directory = σ.dir.directory := by
  have ne : s.numProcs ≠ i := (Nat.ne_of_lt bound).symm
  have ran : ∃ σ', (System.machine F π s).exec σ
      [.tick i, .tock i, .tick i, .tock i, .dirTick, .dirDeliver i, .dirTock] = .ok σ' ∧
      Queued s σ' i (π.tock q.state) (Function.update (σ.cpus i).agents m.block a.state)
        (Message.make i s.numProcs m.block k s) ∧
      σ'.dir.directory = σ.dir.directory := by
    obtain ⟨node, dir, cpuIn, ntwkIn, ntwkInNext, out, up, down, free, queue, next, quiet, sendE⟩ := idle
    simp [Machine.exec, System.machine, System.step, CpuNode.tick, CpuNode.tickProc,
      CpuNode.tickNtwk, CpuNode.portStep, CpuNode.tock, CpuNode.apply, System.send, System.tickDir,
      System.processQueue, DirectoryController.respond, DirectoryController.tock, queued_iff,
      bound, ne, ne.symm, node, dir, cpuIn, ntwkIn, ntwkInNext, out, up, down, free, queue, next, quiet, sendE,
      called, asked, silent, again, silent', waits, answer, toDir, toProc]
  obtain ⟨σ', ran, arrived⟩ := ran
  exact ⟨σ', Machine.reachable_of_exec ran, arrived⟩

/-! ## Back from memory -/

/-- The directory is waiting to answer node `i` out of memory. -/
structure DirectoryController.Answering (d : DirectoryController) (i : NodeId) (b : BlockId)
    (sendE : Bool) : Prop where
  busy : d.requestInProgress = true
  target : d.targetNode = i
  tag : d.tagToSend = b
  sendE : d.sendE = sendE
  quiet : d.ntwkOutNext = []

/-- The answer. -/
def memoryAnswer (F : ProtocolFsm) (s : Settings) (i : NodeId) (b : BlockId) (sendE : Bool) : Message :=
  DirectoryController.request s
    { dest := i, tag := b, kind := if F.usesE ∧ sendE then .dataE else .data }

theorem memoryAnswer_kind (F : ProtocolFsm) (s : Settings) (i : NodeId) (b : BlockId) (sendE : Bool) :
    (memoryAnswer F s i b sendE).kind = .data ∨ (memoryAnswer F s i b sendE).kind = .dataE := by
  simp only [memoryAnswer, DirectoryController.request, Message.make]
  split
  · exact .inr rfl
  · exact .inl rfl

theorem DirectoryController.Answering.respond {d : DirectoryController} {b : BlockId} {sendE : Bool}
    (answering : d.Answering i b sendE) (s : Settings) (st : CoherenceStats) :
    (d.responseTime ≤ d.currentClock ∧
        (d.respond s F.usesE st).1.ntwkOutNext = [memoryAnswer F s i b sendE]) ∨
      d.currentClock < d.responseTime ∧ d.respond s F.usesE st = (d, st) := by
  obtain ⟨busy, target, tag, sendE, quiet⟩ := answering
  by_cases due : d.responseTime ≤ d.currentClock
  · refine .inl ⟨due, ?_⟩
    by_cases clean : F.usesE = true ∧ d.sendE = true
    · simp [DirectoryController.respond, DirectoryController.sendRequest, memoryAnswer, busy, due,
        target, tag, quiet, ← sendE, clean]
    · simp only [DirectoryController.respond, DirectoryController.sendRequest, memoryAnswer, busy, due,
        target, tag, quiet, ← sendE, if_neg clean]
      simp
  · refine .inr ⟨Nat.lt_of_not_le due, ?_⟩
    simp [DirectoryController.respond, due]

/-- Nothing of node `i` is under way but an answer of the directory. -/
@[mk_iff] structure Waits {F : ProtocolFsm} {π : CpuPort} (s : Settings) (σ : System F π) (i : NodeId)
    (n : CpuNode F π) (down : List Message) : Prop where
  node : σ.ticked i = false
  dir : σ.ticked s.numProcs = false
  cpu : σ.cpus i = n
  down : σ.chan s.numProcs i = down

/-- One cycle of the directory. -/
theorem Waits.dirCycle {n : CpuNode F π} (waits : Waits s σ i n []) (bound : i < s.numProcs)
    {d : DirectoryController} {st : CoherenceStats}
    (read : System.processQueue F s { σ.dir with currentClock := σ.clock } σ.stats = .ok (d, st)) :
    ∃ σ', (System.machine F π s).Reachable σ σ' ∧
      Waits s σ' i n ((d.respond s F.usesE st).1.ntwkOutNext.filter (·.dst = i)) ∧
      σ'.dir = { (d.respond s F.usesE st).1.tock with ntwkOutNext := [] } ∧
      σ'.clock = σ.clock + 1 := by
  have ne : i ≠ s.numProcs := Nat.ne_of_lt bound
  obtain ⟨node, dir, cpu, down⟩ := waits
  have ran : ∃ σ', (System.machine F π s).exec σ [.dirTick, .dirTock] = .ok σ' ∧
      Waits s σ' i n ((d.respond s F.usesE st).1.ntwkOutNext.filter (·.dst = i)) ∧
      σ'.dir = { (d.respond s F.usesE st).1.tock with ntwkOutNext := [] } ∧
      σ'.clock = σ.clock + 1 := by
    simp [Machine.exec, System.machine, System.step, System.tickDir, read, System.send, waits_iff, ne,
      node, dir, cpu, down]
  obtain ⟨σ', ran, after⟩ := ran
  exact ⟨σ', Machine.reachable_of_exec ran, after⟩

/-- The answer is sent when it is due. -/
theorem Waits.answered {n : CpuNode F π} (waits : Waits s σ i n []) {b : BlockId} {sendE : Bool}
    (bound : i < s.numProcs) {d : DirectoryController} {st : CoherenceStats}
    (read : System.processQueue F s { σ.dir with currentClock := σ.clock } σ.stats = .ok (d, st))
    (answering : d.Answering i b sendE) (clock : d.currentClock = σ.clock) :
    ∃ σ', (System.machine F π s).Reachable σ σ' ∧ Waits s σ' i n [memoryAnswer F s i b sendE] := by
  -- On the cycles that are left until the answer is due.
  generalize left : d.responseTime - σ.clock = k
  induction k generalizing σ d st with
  | zero =>
      obtain ⟨σ', reached, waits', -, -⟩ := waits.dirCycle bound read
      rcases answering.respond (F := F) s st with ⟨-, sent⟩ | ⟨early, -⟩
      · rw [sent] at waits'
        exact ⟨σ', reached, by simpa [memoryAnswer, DirectoryController.request] using waits'⟩
      · rw [clock] at early
        exact absurd (Nat.sub_eq_zero_iff_le.mp left) (Nat.not_le.mpr early)
  | succ k ih =>
      obtain ⟨σ', reached, waits', dir', clock'⟩ := waits.dirCycle bound read
      rcases answering.respond (F := F) s st with ⟨due, -⟩ | ⟨-, same⟩
      · rw [clock] at due
        cases (Nat.sub_eq_zero_of_le due).symm.trans left
      · rw [same] at waits' dir'
        rw [answering.quiet] at waits'
        have again : System.processQueue F s { σ'.dir with currentClock := σ'.clock } σ'.stats =
            .ok ({ σ'.dir with currentClock := σ'.clock }, σ'.stats) := by
          unfold System.processQueue
          exact if_pos (by rw [dir']; exact answering.busy)
        have still : DirectoryController.Answering { σ'.dir with currentClock := σ'.clock } i b sendE := by
          rw [dir']
          exact ⟨answering.busy, answering.target, answering.tag, answering.sendE, rfl⟩
        have fewer : σ'.dir.responseTime - σ'.clock = k := by
          rw [dir', clock']
          simp only [DirectoryController.tock]
          rw [Nat.sub_add_eq, left]
          rfl
        obtain ⟨σ'', reached', waits''⟩ := ih waits' again still rfl fewer
        exact ⟨σ'', reached.trans reached', waits''⟩

/-- The directory takes the request up and answers it out of memory. -/
theorem Queued.served {st : π.State} {agents : BlockId → F.AgentState} {r : Message}
    (asked : Queued s σ i st agents r) (bound : i < s.numProcs) {o : Outcome}
    (request : r.kind ≠ .dataWb)
    (handled : F.handle s (σ.dir.directory r.block) r = .ok o)
    (schedule : o.schedule = some (r.block, i)) (silent : o.sends = []) :
    ∃ σ', (System.machine F π s).Reachable σ σ' ∧
      Waits s σ' i { cpu := st, agents } [memoryAnswer F s i r.block o.sendE] := by
  obtain ⟨node, dir, cpu, down, free, queue, next, quiet, sendE⟩ := asked
  have waits : Waits s σ i { cpu := st, agents } [] := ⟨node, dir, cpu, down⟩
  have read : System.processQueue F s { σ.dir with currentClock := σ.clock } σ.stats =
      .ok (DirectoryController.carryOut { σ.dir with currentClock := σ.clock } s σ.stats r [] o) := by
    simp [System.processQueue, free, queue, handleWriteback, request, handled]
  have scheduled : ∃ d st, DirectoryController.carryOut { σ.dir with currentClock := σ.clock } s
        σ.stats r [] o = (d, st) ∧ d.Answering i r.block o.sendE ∧ d.currentClock = σ.clock := by
    unfold DirectoryController.carryOut
    simp only [schedule, silent]
    unfold DirectoryController.scheduleDataResponse
    split
    · exact ⟨_, _, rfl, ⟨rfl, rfl, rfl, by simp [DirectoryController.latch, sendE],
        by simp [DirectoryController.latch, quiet]⟩, rfl⟩
    · simp only
      split
      · exact ⟨_, _, rfl, ⟨rfl, rfl, rfl, by simp [DirectoryController.latch, sendE],
          by simp [DirectoryController.latch, quiet]⟩, rfl⟩
      · exact ⟨_, _, rfl, ⟨rfl, rfl, rfl, by simp [DirectoryController.latch, sendE],
          by simp [DirectoryController.latch, quiet]⟩, rfl⟩
  obtain ⟨d, st', same, answering, clock⟩ := scheduled
  rw [same] at read
  exact waits.answered bound read answering clock

/-- The answer reaches the agent, which passes it to the port. -/
theorem Waits.delivered {st : π.State} {agents : BlockId → F.AgentState} {m : Message}
    (waits : Waits s σ i { cpu := st, agents } [m]) (bound : i < s.numProcs)
    (idle : π.tick s i st none = { state := st, cpuInNext := none }) (still : π.tock st = st)
    {a : AgentStep F.AgentState} (answer : F.processNtwkRequest (agents m.block) m.kind = .ok a)
    (toProc : a.toProc = true) :
    ∃ σ', (System.machine F π s).Reachable σ σ' ∧ (σ'.cpus i).cpuInNext = none ∧
      (σ'.cpus i).cpu = π.onNtwkEvent s (π.deposit st (Message.make i i m.block .data s)) m := by
  obtain ⟨node, dir, cpu, down⟩ := waits
  have ran : ∃ σ', (System.machine F π s).exec σ [.tick i, .deliver i, .tock i, .tick i] = .ok σ' ∧
      (σ'.cpus i).cpuInNext = none ∧
      (σ'.cpus i).cpu = π.onNtwkEvent s (π.deposit st (Message.make i i m.block .data s)) m := by
    simp [Machine.exec, System.machine, System.step, CpuNode.tick, CpuNode.tickProc,
      CpuNode.tickNtwk, CpuNode.portStep, CpuNode.tock, CpuNode.apply, bound, node, cpu, down, idle,
      still, answer, toProc]
  obtain ⟨σ', ran, after⟩ := ran
  exact ⟨σ', Machine.reachable_of_exec ran, after⟩

end

/-! ## Every protocol -/

/-- Every protocol asks the directory on a first load. -/
theorem Protocol.first_load (p : Protocol) :
    ∃ a k, p.fsm.processProcRequest p.fsm.initial .load = .ok a ∧ a.toDir = some k ∧
      a.toProc = false ∧ k ≠ .dataWb := by
  cases p <;> exact ⟨_, _, rfl, rfl, rfl, by decide⟩

/-- Memory answers a first load, and the answer lets the processor go on. -/
theorem Protocol.first_answer (p : Protocol) (s : Settings) {e : DirEntry} (idle : e.state = .I)
    {r : Message} {a : AgentStep p.fsm.AgentState}
    (answer : p.fsm.processProcRequest p.fsm.initial .load = .ok a) (toDir : a.toDir = some r.kind) :
    ∃ o b, p.fsm.handle s e r = .ok o ∧ o.schedule = some (r.block, r.src) ∧ o.sends = [] ∧
      p.fsm.processNtwkRequest a.state (if p.fsm.usesE ∧ o.sendE then .dataE else .data) = .ok b ∧
      b.toProc = true := by
  cases p <;> cases answer <;> cases kind : r.kind <;> rw [kind] at toDir <;> cases toDir <;>
    simp [Protocol.fsm, mi, msi, mesi, mosi, moesif, miHandle, msiHandle, mesiHandle, mosiHandle,
      moesifHandle, idle, kind, Outcome.memoryGrant, Outcome.memoryGrantE] <;>
    exact ⟨_, rfl, rfl⟩

/-! ## Full mode -/

/-- The block number that a miss on the address brings to `on_miss`: the L1's, or what the L2
    makes of the L1's block. -/
def missBlock (s : Settings) (l1 l2 : Config) (addr : Nat) : Nat :=
  match s.cacheMode with
  | .sharedLls => addr >>> l1.b
  | .privateL2 => shiftLeft64 (addr >>> l1.b) l1.b >>> l2.b

/-- Caches that hold nothing, and one request waiting in the L1 for the block of its address. -/
@[mk_iff] structure CoherenceAdapter.Missed (a : CoherenceAdapter) (s : Settings) (l1 l2 : Config) (addr : Nat) :
    Prop where
  rows : a.l1d.rows = fun _ => []
  below : ∀ c ∈ a.l2d, c.rows = fun _ => []
  table : ∃ e rest, a.l1d.mshr.table = e :: rest ∧ e.holds 1 = true ∧ e.blockAddr = addr >>> l1.b ∧
    e.dueCycle = Cache.never ∧ e.ready = false ∧ ∀ e' ∈ rest, e'.valid = false
  quiet : a.cacheInNext = none

/-- A load that misses everywhere in a fresh stack. -/
theorem wire_issue (s : Settings) (l1 l2 : Config) (room : 0 < l1.mshrEntries) (i : NodeId) (addr : Nat) :
    let p := (CoherenceAdapter.wire s l1 l2).core s i none (.issue { addr })
    p.state.Missed s l1 l2 addr ∧
      p.state.outboundProc = [Message.make i i (toByteBlock s (missBlock s l1 l2 addr)) .load s] ∧
      p.sends = [] ∧ p.cpuInNext = none := by
  obtain ⟨n, entries⟩ : ∃ n, l1.mshrEntries = n + 1 := ⟨l1.mshrEntries - 1, by omega⟩
  cases mode : s.cacheMode <;> cases upper : l1.writePolicy <;> cases lower : l2.writePolicy <;>
    simp [CoherenceAdapter.missed_iff, CoherenceAdapter.core, CoherenceAdapter.settle, CoherenceAdapter.sink,
      CoherenceAdapter.onMiss, CoherenceAdapter.wire, mode, Cache.issue, Cache.build, MSHR.make,
      entries, MSHR.full, List.replicate_succ, MSHREntry.targets, Cache.access, Cache.accessWbwa,
      Cache.accessWtwna, upper, lower, Cache.bump, Cache.set, Cache.fetch, Below.cache,
      Below.nothing, Op.isWrite, Cache.getBlockAddr, missBlock, MSHR.allocate, modifyFirst,
      MSHREntry.holds]

/-- A queued request goes to the agents, and a quiet adapter does nothing. -/
theorem tick_queued {s : Settings} {i : NodeId} {a : CoherenceAdapter} {m : Message}
    (asked : a.outboundProc = [m]) (quiet : a.cacheInNext = none) :
    adapterPort.tick s i a none = { state := { a with outboundProc := [] }, cpuInNext := some m } := by
  simp [adapterPort, CoherenceAdapter.tick, CoherenceAdapter.drain, asked, quiet]

theorem tick_quiet {s : Settings} {i : NodeId} {a : CoherenceAdapter} (asked : a.outboundProc = [])
    (quiet : a.cacheInNext = none) : adapterPort.tick s i a none = { state := a, cpuInNext := none } := by
  simp [adapterPort, CoherenceAdapter.tick, CoherenceAdapter.drain, asked, quiet]

/-- A core's first load, at any address, reaches the directory. -/
theorem fullMode_asks (s : Settings) (l1 l2 : Config) (room : 0 < l1.mshrEntries) {i : NodeId}
    (bound : i < s.numProcs) (addr : Nat) {a : AgentStep s.protocol.fsm.AgentState} {k : MessageKind}
    (answer : s.protocol.fsm.processProcRequest s.protocol.fsm.initial .load = .ok a)
    (toDir : a.toDir = some k) (toProc : a.toProc = false) :
    ∃ (σ : System s.protocol.fsm adapterPort) (st : CoherenceAdapter) (agents : _),
      (System.machine s.protocol.fsm adapterPort s).Reachable (fullMode s.protocol.fsm s l1 l2) σ ∧
      Queued s σ i st agents
        (Message.make i s.numProcs (toByteBlock s (missBlock s l1 l2 addr)) k s) ∧
      agents (toByteBlock s (missBlock s l1 l2 addr)) = a.state ∧
      σ.dir.directory = (fullMode s.protocol.fsm s l1 l2).dir.directory ∧
      st.Missed s l1 l2 addr ∧ st.outboundProc = [] := by
  let σ := fullMode s.protocol.fsm s l1 l2
  obtain ⟨missed, asked, silent, slot⟩ := wire_issue s l1 l2 room i addr
  let p := (CoherenceAdapter.wire s l1 l2).core s i none (.issue { addr })
  let n := (σ.cpus i).portStep p
  have cpu : n = { cpu := p.state } := by
    have out : p.sends = [] := silent
    have free : p.cpuInNext = none := slot
    simp only [n, CpuNode.portStep, out, free]
    rfl
  have issued : σ.step s (.external i (.issue { addr })) = .ok (σ.setCpu i n) := by
    simp only [System.step]
    exact if_pos ⟨bound, rfl⟩
  have idle : Idle s (σ.setCpu i n) i := by
    constructor <;> try rfl
    all_goals rw [setCpu_cpus_self, cpu]
  let st : CoherenceAdapter := { p.state with outboundProc := [] }
  have called : adapterPort.tick s i ((σ.setCpu i n).cpus i).cpu ((σ.setCpu i n).cpus i).cpuInNext =
      { state := st
        cpuInNext := some (Message.make i i (toByteBlock s (missBlock s l1 l2 addr)) .load s) } := by
    rw [setCpu_cpus_self, cpu]
    exact tick_queued asked missed.quiet
  have again : adapterPort.tick s i st none = { state := st, cpuInNext := none } :=
    tick_quiet rfl missed.quiet
  obtain ⟨σ', reached, after, same⟩ := idle.asks bound called rfl rfl again rfl rfl
    (by rw [setCpu_cpus_self, cpu]; exact answer) toDir toProc
  have run : (System.machine s.protocol.fsm adapterPort s).Reachable σ (σ.setCpu i n) :=
    Machine.Run.step (a := .external i (.issue { addr })) .start trivial issued
  exact ⟨σ', st, _, run.trans reached, after, Function.update_self .., same,
    ⟨missed.rows, missed.below, missed.table, missed.quiet⟩, rfl⟩

/-- An answer changes nothing in the caches before it is consumed. -/
theorem CoherenceAdapter.onNtwkEvent_answer {s : Settings} {a : CoherenceAdapter} {m : Message}
    (answer : m.kind = .data ∨ m.kind = .dataE) : a.onNtwkEvent s m = a := by
  unfold onNtwkEvent
  rcases answer with kind | kind <;> rw [kind]

/-- A core's first load is answered. -/
theorem fullMode_answered (s : Settings) (l1 l2 : Config) (room : 0 < l1.mshrEntries) {i : NodeId}
    (bound : i < s.numProcs) (addr : Nat) :
    ∃ (σ : System s.protocol.fsm adapterPort) (st : CoherenceAdapter),
      (System.machine s.protocol.fsm adapterPort s).Reachable (fullMode s.protocol.fsm s l1 l2) σ ∧
      (σ.cpus i).cpuInNext = none ∧ st.Missed s l1 l2 addr ∧ st.outboundProc = [] ∧
      (σ.cpus i).cpu = { st with
        cacheInNext := some (Message.make i i (toByteBlock s (missBlock s l1 l2 addr)) .data s) } := by
  obtain ⟨a, k, answer, toDir, toProc, request⟩ := s.protocol.first_load
  obtain ⟨σ, st, agents, run, asked, agent, same, missed, empty⟩ :=
    fullMode_asks s l1 l2 room bound addr answer toDir toProc
  obtain ⟨o, b, handled, schedule, silent, accepts, deposits⟩ :=
    s.protocol.first_answer s (e := σ.dir.directory (toByteBlock s (missBlock s l1 l2 addr)))
      (by rw [same]; rfl) answer
      (r := Message.make i s.numProcs (toByteBlock s (missBlock s l1 l2 addr)) k s) toDir
  obtain ⟨σ₁, run₁, waits⟩ := asked.served bound request handled schedule silent
  obtain ⟨σ₂, run₂, slot, cpu⟩ := waits.delivered bound (tick_quiet empty missed.quiet) rfl
    (by rw [← agent] at accepts; exact accepts) deposits
  refine ⟨σ₂, st, (run.trans run₁).trans run₂, slot, missed, empty, ?_⟩
  rw [cpu]
  exact CoherenceAdapter.onNtwkEvent_answer (memoryAnswer_kind ..)

/-! ## Cores that can issue nothing -/

/-- An adapter over an L1 without MSHR slots has nothing to say. -/
structure CoherenceAdapter.Mute (a : CoherenceAdapter) : Prop where
  slots : a.l1d.mshr.table = []
  outbound : a.outboundProc = []
  filled : a.cacheInNext = none

theorem CoherenceAdapter.Mute.core {a : CoherenceAdapter} (mute : a.Mute) (s : Settings) (i : NodeId)
    (slot : Option Message) (event : CoreEvent) :
    (a.core s i slot event).state.Mute ∧ (a.core s i slot event).sends = [] ∧
      (a.core s i slot event).cpuInNext = slot := by
  obtain ⟨slots, outbound, filled⟩ := mute
  cases event with
  | issue req =>
      have refused : (a.l1d.issue (β := .cache) a.l2d req).1 = { cache := a.l1d, below := a.l2d } := by
        simp [Cache.issue, slots, MSHR.full]
      have same : a.core s i slot (.issue req) = { state := a, cpuInNext := slot } := by
        simp [CoherenceAdapter.core, refused, CoherenceAdapter.settle, CoherenceAdapter.sink]
      rw [same]
      exact ⟨⟨slots, outbound, filled⟩, rfl, rfl⟩
  | complete id =>
      refine ⟨⟨?_, outbound, filled⟩, rfl, rfl⟩
      simp [CoherenceAdapter.core, Cache.complete, MSHR.release, slots, modifyFirst]
  | tick =>
      refine ⟨⟨?_, outbound, filled⟩, rfl, rfl⟩
      simp [CoherenceAdapter.core, Cache.tick, MSHR.tick, slots]

/-- A node with nothing under way. -/
structure CpuNode.Mute {F : ProtocolFsm} (n : CpuNode F adapterPort) : Prop where
  cpu : CoherenceAdapter.Mute n.cpu
  cpuInNext : n.cpuInNext = none
  cpuIn : n.cpuIn = none
  ntwkInNext : n.ntwkInNext = none
  ntwkIn : n.ntwkIn = none
  out : n.ntwkOutNext = []

theorem CpuNode.Mute.tick {F : ProtocolFsm} {n : CpuNode F adapterPort} (mute : n.Mute)
    (s : Settings) (i : NodeId) (st : CoherenceStats) : n.tick s i st = .ok (n, st) := by
  obtain ⟨cpu, cpuInNext, cpuIn, ntwkInNext, ntwkIn, out⟩ := mute
  obtain ⟨adapter, slot, slot', mail, mail', agents, sent⟩ := n
  simp only at cpu cpuInNext cpuIn ntwkInNext ntwkIn out
  subst cpuInNext cpuIn ntwkInNext ntwkIn out
  simp [CpuNode.tick, tick_quiet cpu.outbound cpu.filled, CpuNode.portStep, CpuNode.tickProc,
    CpuNode.tickNtwk]

theorem CpuNode.Mute.tock {F : ProtocolFsm} {n : CpuNode F adapterPort} (mute : n.Mute) :
    n.tock.Mute where
  cpu := mute.cpu
  cpuInNext := rfl
  cpuIn := by simp [CpuNode.tock, mute.cpuInNext, mute.cpuIn]
  ntwkInNext := rfl
  ntwkIn := by simp [CpuNode.tock, mute.ntwkInNext, mute.ntwkIn]
  out := rfl

theorem CpuNode.Mute.core {F : ProtocolFsm} {n : CpuNode F adapterPort} (mute : n.Mute)
    (s : Settings) (i : NodeId) (event : CoreEvent) :
    (n.portStep (CoherenceAdapter.core n.cpu s i n.cpuInNext event)).Mute := by
  obtain ⟨cpu, sends, slot⟩ := mute.cpu.core s i n.cpuInNext event
  refine ⟨cpu, slot.trans mute.cpuInNext, mute.cpuIn, mute.ntwkInNext, mute.ntwkIn, ?_⟩
  simp [CpuNode.portStep, sends, mute.out]

/-- Nothing is under way anywhere. -/
structure Dormant {F : ProtocolFsm} (σ : System F adapterPort) : Prop where
  cpus : ∀ i, (σ.cpus i).Mute
  free : σ.dir.requestInProgress = false
  queue : σ.dir.requestQueue = []
  next : σ.dir.requestNext = []
  out : σ.dir.ntwkOutNext = []
  chan : ∀ i j, σ.chan i j = []

section

variable {F : ProtocolFsm} {s : Settings} {σ σ' : System F adapterPort} {i : NodeId}

/-- A node that is still mute takes the place of the old one. -/
theorem Dormant.setCpu (dormant : Dormant σ) {n : CpuNode F adapterPort} (mute : n.Mute) (j : NodeId) :
    (Function.update σ.cpus i n j).Mute := by
  by_cases eq : j = i
  · subst j
    rwa [Function.update_self]
  · rw [Function.update_of_ne eq]
    exact dormant.cpus j

theorem Dormant.step (dormant : Dormant σ) {a : Action adapterPort} (step : σ.step s a = .ok σ') :
    Dormant σ' := by
  obtain ⟨cpus, free, queue, next, out, chan⟩ := dormant
  have silent (k : NodeId) : System.send σ.chan k [] = σ.chan := by
    funext j
    by_cases eq : j = k
    · subst j
      simp [System.send]
    · simp [System.send, eq]
  cases a <;> simp only [System.step] at step
  case tick i =>
    rw [(cpus i).tick] at step
    split at step
    · cases step
      exact ⟨(Dormant.mk cpus free queue next out chan).setCpu (cpus i), free, queue, next, out, chan⟩
    · cases step
  case tock i =>
    split at step
    · cases step
      refine ⟨(Dormant.mk cpus free queue next out chan).setCpu (cpus i).tock, free, queue, next, out, ?_⟩
      rw [(cpus i).out, silent]
      exact chan
    · cases step
  case deliver i =>
    rw [chan] at step
    split at step <;> cases step
  case external i event =>
    split at step
    · cases step
      exact ⟨(Dormant.mk cpus free queue next out chan).setCpu ((cpus i).core s i event), free, queue,
        next, out, chan⟩
    · cases step
  case dirTick =>
    have quiet : System.tickDir F s σ.dir σ.clock σ.stats =
        .ok ({ σ.dir with currentClock := σ.clock }, σ.stats) := by
      simp [System.tickDir, System.processQueue, free, queue, DirectoryController.respond]
    rw [quiet] at step
    split at step
    · cases step
      exact ⟨cpus, free, queue, next, out, chan⟩
    · cases step
  case dirTock =>
    split at step
    · cases step
      refine ⟨cpus, free, ?_, rfl, rfl, ?_⟩
      · simp [DirectoryController.tock, queue, next]
      · rw [out, silent]
        exact chan
    · cases step
  case dirDeliver src =>
    rw [chan] at step
    split at step <;> cases step

end

/-- Cores whose L1 has no MSHR slots never ask for anything. -/
theorem fullMode_dormant {s : Settings} {l1 l2 : Config} (none : l1.mshrEntries = 0)
    {σ : System s.protocol.fsm adapterPort}
    (reached : (System.machine s.protocol.fsm adapterPort s).Reachable
      (fullMode s.protocol.fsm s l1 l2) σ) : Dormant σ := by
  have mute : (CoherenceAdapter.wire s l1 l2).Mute := by
    unfold CoherenceAdapter.wire
    split <;> exact ⟨by simp [Cache.build, MSHR.make, none], rfl, rfl⟩
  refine reached.invariant ?_ fun σ a σ' dormant _ step => dormant.step step
  exact ⟨fun i => ⟨mute, rfl, rfl, rfl, rfl, rfl⟩, rfl, rfl, rfl, rfl, fun _ _ => rfl⟩

end Coherence
