import MulticoreSim.Coherence.Closure

/-! # What the adapter hands to the agents

Over a bottom L1 the adapter hands a request over only to an agent at rest. Over a
private L2 a dirty line that the L1 evicts is written into the L2, whose sink asks for
the line again: that request waits for no slot, and a second one can find the agent in
a transient state.
-/

namespace Coherence

open DirectoryProtocol Memory

variable {F : ProtocolFsm} {s : Settings}

/-! ## What the sink is asked for -/

/-- The blocks that a row of calls asks the agents for. -/
def asked (s : Settings) (calls : List SinkCall) : List BlockId :=
  calls.filterMap fun
    | .onMiss cacheBlock _ => some (toByteBlock s cacheBlock)
    | .onEvict _ _ => none

theorem asked_evicts {calls : List SinkCall} (evicts : ∀ call ∈ calls, ∃ v dirty, call = .onEvict v dirty) :
    asked s calls = [] := by
  refine List.filterMap_eq_nil_iff.mpr fun call mem => ?_
  obtain ⟨v, dirty, rfl⟩ := evicts call mem
  rfl

/-- Requests that a row of calls brings on. -/
structure Carries (s : Settings) (calls : List SinkCall) (messages : List Message) : Prop where
  blocks : messages.map (·.block) = asked s calls
  kinds : ∀ m ∈ messages, m.kind = .load ∨ m.kind = .store

namespace CoherenceAdapter

variable {i : NodeId} (a : CoherenceAdapter)

/-- The calls of the L1 and what is below it when the fill that waits is taken in. -/
def fillCalls (s : Settings) : List SinkCall :=
  match a.cacheInNext with
  | none => []
  | some m =>
      let cacheBlock := toCacheBlock s m.block
      (a.l1d.fill (β := .cache) (a.filledL2 cacheBlock) cacheBlock (a.pendingStores m.block)).calls

/-- The calls that an event of the core brings on. -/
def eventCalls : CoreEvent → List SinkCall
  | .issue req => (a.l1d.issue (β := .cache) a.l2d req).1.calls
  | _ => []

theorem sink_carries (calls : List SinkCall) :
    ∃ messages, (a.sink s i calls).1.outboundProc = a.outboundProc ++ messages ∧
      Carries s calls messages := by
  induction calls generalizing a with
  | nil => exact ⟨[], (List.append_nil _).symm, rfl, fun m mem => by cases mem⟩
  | cons call rest ih =>
      cases call with
      | onMiss cacheBlock op =>
          obtain ⟨messages, out, carried⟩ := ih (a.onMiss s i cacheBlock op)
          let m := Message.make i i (toByteBlock s cacheBlock) (if op.isWrite then .store else .load) s
          refine ⟨m :: messages, ?_, ?_, fun m' mem => ?_⟩
          · refine out.trans ?_
            simp [onMiss, m]
          · exact congrArg (toByteBlock s cacheBlock :: ·) carried.blocks
          · rcases List.mem_cons.mp mem with rfl | later
            · cases op <;> simp [m, Message.make, Op.isWrite]
            · exact carried.kinds m' later
      | onEvict v dirty =>
          obtain ⟨messages, out, carried⟩ := ih a
          exact ⟨messages, out, carried.blocks, carried.kinds⟩

theorem drain_fillCalls (slot : Option Message) : (a.drain slot).1.fillCalls s = a.fillCalls s := by
  unfold drain
  split <;> rfl

theorem fill_carries {m : Message} (deposit : a.cacheInNext = some m) :
    ∃ messages, (a.fill s i m).1.outboundProc = a.outboundProc ++ messages ∧
      Carries s (a.fillCalls s) messages := by
  simp only [fillCalls, deposit, fill, settle, fillL2_eq]
  exact sink_carries _ _

end CoherenceAdapter

/-! ## One request for a block -/

/-- A request for the block is between the L1 and its agent, or the agent waits for an answer. -/
def CpuNode.UnderWay (L : AgentLaws F) (n : CpuNode F adapterPort) (b : BlockId) : Prop :=
  b ∈ n.requests.map (·.block) ∨ (L.view (n.agents b)).want ≠ .nothing

instance (L : AgentLaws F) (n : CpuNode F adapterPort) (b : BlockId) : Decidable (n.UnderWay L b) := by
  unfold CpuNode.UnderWay
  infer_instance

/-- The calls ask for nothing that is under way, and for no block twice. -/
structure CpuNode.Anew (L : AgentLaws F) (s : Settings) (n : CpuNode F adapterPort)
    (calls : List SinkCall) : Prop where
  once : (asked s calls).Nodup
  fresh : ∀ b ∈ asked s calls, ¬ n.UnderWay L b

instance (L : AgentLaws F) (s : Settings) (n : CpuNode F adapterPort) (calls : List SinkCall) :
    Decidable (n.Anew L s calls) :=
  decidable_of_iff ((asked s calls).Nodup ∧ ∀ b ∈ asked s calls, ¬ n.UnderWay L b)
    ⟨fun both => ⟨both.1, both.2⟩, fun anew => ⟨anew.once, anew.fresh⟩⟩

/-- No `on_miss` is made for a block that is under way. -/
def AsksAnew (L : AgentLaws F) (s : Settings) (σ : System F adapterPort) : Action adapterPort → Prop
  | .tick i => (σ.cpus i).Anew L s (CoherenceAdapter.fillCalls (σ.cpus i).cpu s)
  | .external i event => (σ.cpus i).Anew L s (CoherenceAdapter.eventCalls (σ.cpus i).cpu event)
  | _ => True

instance (L : AgentLaws F) (s : Settings) (σ : System F adapterPort) (a : Action adapterPort) :
    Decidable (AsksAnew L s σ a) :=
  match a with
  | .tick i =>
      inferInstanceAs (Decidable ((σ.cpus i).Anew L s (CoherenceAdapter.fillCalls (σ.cpus i).cpu s)))
  | .external i event =>
      inferInstanceAs (Decidable ((σ.cpus i).Anew L s (CoherenceAdapter.eventCalls (σ.cpus i).cpu event)))
  | .tock _ | .deliver _ | .dirTick | .dirTock | .dirDeliver _ => isTrue trivial

namespace OneAsked

variable {L : AgentLaws F} {i : NodeId} {n n' : CpuNode F adapterPort}

/-- Some of the requests are left, with agents that wait for nothing more. -/
theorem fewer (one : OneAsked L n) (requests : n'.requests.Sublist n.requests)
    (wants : ∀ m ∈ n'.requests, (L.view (n'.agents m.block)).want = (L.view (n.agents m.block)).want) :
    OneAsked L n' where
  once := one.once.sublist (requests.map _)
  atRest m mem := (wants m mem).trans (one.atRest m (requests.subset mem))
  kinds m mem := one.kinds m (requests.subset mem)

/-- New requests for blocks that are not under way. -/
theorem more (one : OneAsked L n) {calls : List SinkCall} {messages : List Message}
    (anew : n.Anew L s calls) (carried : Carries s calls messages)
    (requests : n'.requests = n.requests ++ messages) (agents : n'.agents = n.agents) : OneAsked L n' := by
  have fresh {m : Message} (mem : m ∈ messages) : ¬ n.UnderWay L m.block := by
    apply anew.fresh
    rw [← carried.blocks]
    exact List.mem_map_of_mem mem
  refine ⟨?_, fun m mem => ?_, fun m mem => ?_⟩
  · rw [requests, List.map_append, List.nodup_append]
    refine ⟨one.once, carried.blocks ▸ anew.once, fun b old b' new eq => ?_⟩
    obtain ⟨m, mem, rfl⟩ := List.mem_map.mp new
    exact fresh mem (.inl (eq ▸ old))
  · rw [agents]
    rcases List.mem_append.mp (requests ▸ mem) with old | new
    · exact one.atRest m old
    · by_contra wants
      exact fresh new (.inr wants)
  · rcases List.mem_append.mp (requests ▸ mem) with old | new
    · exact one.kinds m old
    · exact carried.kinds m new

theorem drain (one : OneAsked L n) :
    OneAsked L { n with
      cpu := (CoherenceAdapter.drain n.cpu n.cpuInNext).1
      cpuInNext := (CoherenceAdapter.drain n.cpu n.cpuInNext).2 } :=
  one.fewer (n.requests_drain ▸ List.Sublist.refl _) fun _ _ => rfl

/-- The port of a node that asks for nothing under way. -/
theorem port (one : OneAsked L n) (anew : n.Anew L s (CoherenceAdapter.fillCalls n.cpu s)) :
    OneAsked L (n.portStep (n.called s i)) := by
  have drained := one.drain
  rw [← CoherenceAdapter.drain_fillCalls n.cpu n.cpuInNext] at anew
  change OneAsked L (n.portStep (CoherenceAdapter.tick s i n.cpu n.cpuInNext))
  unfold CoherenceAdapter.tick
  simp only
  split
  · exact drained.fewer (List.Sublist.refl _) fun _ _ => rfl
  · next m deposit =>
      obtain ⟨messages, out, carried⟩ :=
        CoherenceAdapter.fill_carries (s := s) (i := i) (CoherenceAdapter.drain n.cpu n.cpuInNext).1 deposit
      refine one.more anew carried ?_ rfl
      rw [← n.requests_drain]
      simp only [CpuNode.requests, CpuNode.portStep, out, List.append_assoc]

/-- A request is taken in; the others are for other agents. -/
theorem proc (one : OneAsked L n) {st st' : CoherenceStats} (step : n.tickProc s i st = .ok (n', st')) :
    OneAsked L n' := by
  rcases CpuNode.tickProc_takes step with rfl | ⟨m, a, -, rfl, old⟩
  · exact one
  · have once := one.once
    rw [old, List.map_cons, List.nodup_cons] at once
    refine one.fewer ?_ fun m' mem => ?_
    · rw [old]
      exact List.sublist_cons_self _ _
    · have other : m'.block ≠ m.block := by
        intro eq
        have listed := List.mem_map_of_mem (f := (·.block)) mem
        rw [eq] at listed
        exact once.1 listed
      simp only [CpuNode.apply, Function.update_of_ne other]

theorem event (one : OneAsked L n) (m : Message) :
    OneAsked L { n with cpu := n.cpu.onNtwkEvent s m, ntwkIn := none } := by
  obtain ⟨out, -, -⟩ := n.cpu.onNtwkEvent_fields (s := s) m
  refine one.fewer ?_ fun _ _ => rfl
  simp only [CpuNode.requests, out]
  exact List.Sublist.refl _

/-- The network answers an agent that waits, or leaves what it waits for. -/
theorem ntwk (one : OneAsked L n) {st st' : CoherenceStats} (step : n.tickNtwk s i st = .ok (n', st')) :
    OneAsked L n' := by
  unfold CpuNode.tickNtwk at step
  split at step
  · cases step
    exact one
  · next m here =>
      split at step
      · cases step
      · next a answered =>
          cases step
          have requests := CpuNode.requests_apply (s := s) (i := i) n m.block a
          suffices OneAsked L (n.apply s i m.block a) from this.event m
          refine one.fewer (requests ▸ List.Sublist.refl _) fun m' mem => ?_
          rw [requests] at mem
          simp only [CpuNode.apply]
          by_cases eq : m'.block = m.block
          · rw [eq, Function.update_self]
            rcases L.ntwk _ _ _ answered with ⟨g, -, wants, -⟩ | ⟨-, kept⟩
            · exact absurd (eq ▸ one.atRest m' mem) wants
            · rcases kept with ⟨-, -, -, view⟩ | ⟨-, -, -, view⟩ | ⟨-, -, -, -, view⟩ |
                ⟨-, -, -, -, view⟩ <;> rw [view]
          · rw [Function.update_of_ne eq]

theorem tick (one : OneAsked L n) (anew : n.Anew L s (CoherenceAdapter.fillCalls n.cpu s))
    {st st' : CoherenceStats} (step : n.tick s i st = .ok (n', st')) : OneAsked L n' := by
  unfold CpuNode.tick at step
  simp only at step
  split at step
  · cases step
  · next n₁ st₁ asked => exact ((one.port anew).proc asked).ntwk step

theorem core (one : OneAsked L n) {event : CoreEvent}
    (anew : n.Anew L s (CoherenceAdapter.eventCalls n.cpu event)) :
    OneAsked L (n.portStep (CoherenceAdapter.core n.cpu s i n.cpuInNext event)) := by
  cases event with
  | issue req =>
      let r := (n.cpu.l1d.issue (β := .cache) n.cpu.l2d req).1
      obtain ⟨messages, out, carried⟩ := CoherenceAdapter.sink_carries (s := s) (i := i)
        { n.cpu with l1d := r.cache, l2d := r.below } r.calls
      refine one.more anew carried ?_ rfl
      simp only [CpuNode.requests, CpuNode.portStep, CoherenceAdapter.core, CoherenceAdapter.settle, r]
        at out ⊢
      rw [out]
      simp only [List.append_assoc]
  | complete id | tick => exact one.fewer (List.Sublist.refl _) fun _ _ => rfl

theorem initial (s : Settings) (l1 l2 : Config) : OneAsked L { cpu := CoherenceAdapter.wire s l1 l2 } := by
  have empty : CpuNode.requests { cpu := CoherenceAdapter.wire s l1 l2 : CpuNode F adapterPort } = [] := by
    unfold CoherenceAdapter.wire
    split <;> rfl
  refine ⟨?_, fun m mem => ?_, fun m mem => ?_⟩
  · rw [empty]
    exact List.nodup_nil
  · cases empty ▸ mem
  · cases empty ▸ mem

end OneAsked

/-! ## Runs -/

/-- Every request between an L1 and its agents is for an agent at rest, and the agents have an
    answer to what they are handed next. -/
structure ProcDisciplined (L : AgentLaws F) (s : Settings) (σ : System F adapterPort) : Prop where
  atRest : ∀ i, ∀ m ∈ (σ.cpus i).requests, (L.view ((σ.cpus i).agents m.block)).want = .nothing
  answered : σ.ProcAnswered s

theorem procDisciplined_run {l1 l2 : Config} {σ : System F adapterPort} (L : AgentLaws F)
    (run : (System.machine F adapterPort s).Run (AsksAnew L s) (fullMode F s l1 l2) σ) :
    ProcDisciplined L s σ := by
  have each : ∀ i, OneAsked L (σ.cpus i) := by
    refine run.invariant (I := fun σ => ∀ i, OneAsked L (σ.cpus i)) (fun i => .initial s l1 l2) ?_
    intro σ a σ' each anew step j
    have one := each j
    generalize eq : σ'.cpus j = n
    have moved : System.NodeStep s σ j a n := eq ▸ System.node_step step j
    cases moved with
    | idle => exact one
    | tick ticked => exact one.tick anew ticked
    | tock => exact one.fewer (CpuNode.requests_tock _) fun _ _ => rfl
    | deliver m => exact one.fewer (List.Sublist.refl _) fun _ _ => rfl
    | external called =>
        cases called
        exact one.core anew
  exact ⟨fun i => (each i).atRest, fun i _ st => (each i).answered _ st⟩

theorem CpuNode.anew_of_nothing {L : AgentLaws F} {n : CpuNode F adapterPort} {calls : List SinkCall}
    (nothing : asked s calls = []) : n.Anew L s calls := by
  refine ⟨?_, fun b mem => ?_⟩
  · rw [nothing]
    exact List.nodup_nil
  · cases nothing ▸ mem

theorem CoherenceAdapter.FillsQuietly.asked {a : CoherenceAdapter} (quiet : a.FillsQuietly s) :
    asked s (a.fillCalls s) = [] := by
  unfold FillsQuietly at quiet
  unfold fillCalls
  split
  · rfl
  · next m deposit =>
      rw [deposit] at quiet
      exact asked_evicts quiet

/-- A miss of the block that its slot waits for is not under way before. -/
theorem OneEach.anew_issue {L : AgentLaws F} {n : CpuNode F adapterPort} (one : OneEach L s n) {req : MemReq}
    (driven : (CoreEvent.issue req).Driven s n.cpu) (own : CoherenceAdapter.AsksOwn n.cpu (.issue req)) :
    n.Anew L s (CoherenceAdapter.eventCalls n.cpu (.issue req)) := by
  obtain ⟨alone, fits⟩ := driven
  rcases own.issue alone with calls | ⟨op, calls, unused, -⟩
  · exact CpuNode.anew_of_nothing (congrArg (asked s) calls)
  · obtain ⟨unasked, rest⟩ := one.unasked fits unused
    have block : asked s (CoherenceAdapter.eventCalls n.cpu (.issue req)) =
        [toByteBlock s (n.cpu.l1d.getBlockAddr req.addr)] := congrArg (asked s) calls
    refine ⟨?_, fun b mem => ?_⟩
    · rw [block]
      exact List.nodup_singleton _
    · rw [block] at mem
      cases List.mem_singleton.mp mem
      rintro (under | wants)
      · refine unasked ?_
        rw [CpuNode.pending, List.map_append]
        exact List.mem_append_right _ under
      · exact wants rest

theorem asksAnew_of_own {L : AgentLaws F} {σ : System F adapterPort} (each : ∀ i, OneEach L s (σ.cpus i))
    {a : Action adapterPort} (driven : Driven s σ a) (own : AsksOwn s σ a) : AsksAnew L s σ a := by
  cases a with
  | tick i => exact CpuNode.anew_of_nothing (CoherenceAdapter.FillsQuietly.asked own)
  | external i event =>
      cases event with
      | issue req => exact (each i).anew_issue driven own
      | complete id | tick => exact CpuNode.anew_of_nothing rfl
  | tock i | deliver i | dirTick | dirTock | dirDeliver src => trivial

/-- Where the caches ask for nothing but what the cores ask for, they ask for nothing under way. -/
theorem anewRun_of_own {l1 l2 : Config} {σ : System F adapterPort} (L : AgentLaws F)
    (run : (System.machine F adapterPort s).Run (fun σ a => Driven s σ a ∧ AsksOwn s σ a)
      (fullMode F s l1 l2) σ) :
    (System.machine F adapterPort s).Run (AsksAnew L s) (fullMode F s l1 l2) σ := by
  refine run.mono_under (J := fun σ => ∀ i, OneEach L s (σ.cpus i)) (fun τ before => ?_)
    fun τ a each meets => asksAnew_of_own each meets.1 meets.2
  exact oneEach_run (fun _ _ meets => meets.1) (fun _ _ meets => meets.2) before

/-- In every run whose caches ask for no block that is under way the agents are handed what they
    are ready for. Such is every run of cores that use their L1 as their load-store units do, as
    long as the caches ask for nothing but what the cores ask for; in shared_lls mode they never
    do. -/
theorem proc_discipline (s : Settings) (l1 l2 : Config) :
    (∀ σ, (System.machine s.protocol.fsm adapterPort s).Run (AsksAnew s.protocol.laws.toAgentLaws s)
        (fullMode s.protocol.fsm s l1 l2) σ →
      ProcDisciplined s.protocol.laws.toAgentLaws s σ) ∧
    (∀ σ, (System.machine s.protocol.fsm adapterPort s).Run
        (fun σ a => Driven s σ a ∧ AsksOwn s σ a) (fullMode s.protocol.fsm s l1 l2) σ →
      (System.machine s.protocol.fsm adapterPort s).Run (AsksAnew s.protocol.laws.toAgentLaws s)
        (fullMode s.protocol.fsm s l1 l2) σ) ∧
    (s.cacheMode = .sharedLls →
      ∀ σ, (System.machine s.protocol.fsm adapterPort s).Run (Driven s)
          (fullMode s.protocol.fsm s l1 l2) σ →
        ProcDisciplined s.protocol.laws.toAgentLaws s σ) :=
  ⟨fun _ run => procDisciplined_run _ run, fun _ run => anewRun_of_own _ run,
    fun shared _ run => procDisciplined_run _ (anewRun_of_own _ (ownRun_of_shared shared run))⟩

/-! ## Victims of a private L1 -/

def privateSettings : Settings := { protocol := .MESI, numProcs := 1, memLatency := 1 }

/-- Two lines, one to a set. -/
def directL1 : Config := { c := 7, b := 6, s := 0 }

/-- The core's clock ticks. -/
def beats (k : Nat) : List (Action adapterPort) := List.replicate k (.external 0 .tick)

/-- A load, a store that hits, and a load that drives the stored line out of the L1. -/
def dirtyVictim : List (Action adapterPort) :=
  [load 0 0] ++ cycles 1 8 ++ [done 0 1, store 0 0] ++ beats 2 ++ [done 0 2, load 0 128]

/-- The victim is asked for; then it is loaded from the L2, stored to and driven out again. -/
def victimTwice : List (Action adapterPort) :=
  dirtyVictim ++ cycles 1 8 ++ [done 0 3, load 0 0] ++ beats 4 ++ [done 0 4, store 0 0] ++ beats 2 ++
    [done 0 5, load 0 128, .tick 0, .tock 0, .tick 0, .tock 0]

/-- The victim is asked for, and its request is answered before another is made. -/
theorem proc_discipline_victim :
    (System.machine mesi adapterPort privateSettings).heeds (AsksOwn privateSettings)
        (fullMode mesi privateSettings directL1 {}) (dirtyVictim ++ cycles 1 16) = false ∧
      ProcDisciplined mesiNetwork.toAgentLaws privateSettings
        ((System.machine mesi adapterPort privateSettings).attempt
          (fullMode mesi privateSettings directL1 {}) (dirtyVictim ++ cycles 1 16)) :=
  ⟨by decide +kernel,
    (proc_discipline privateSettings directL1 {}).1 _ (Machine.run_attempt _ (by decide +kernel))⟩

theorem victimTwice_driven :
    (System.machine mesi adapterPort privateSettings).heeds (Driven privateSettings)
      (fullMode mesi privateSettings directL1 {}) victimTwice = true := by
  decide +kernel

/-- Its mailbox holds the second request. -/
def askedTwice : System mesi adapterPort :=
  (System.machine mesi adapterPort privateSettings).attempt (fullMode mesi privateSettings directL1 {})
    victimTwice

theorem askedTwice_throws :
    (askedTwice.cpus 0).cpuIn.map (·.block) = some 0 ∧
      MesiState.view ((askedTwice.cpus 0).agents 0) = ⟨.exclusive, .write⟩ ∧
      askedTwice.thrown privateSettings (.tick 0) =
        some "MESI: transient state should not see another proc request" := by
  decide +kernel

/-- A second request for a victim finds the agent waiting for the first. -/
theorem transient_agent_asked :
    ∃ σ, (System.machine mesi adapterPort privateSettings).Run (Driven privateSettings)
        (fullMode mesi privateSettings directL1 {}) σ ∧
      σ.thrown privateSettings (.tick 0) =
        some "MESI: transient state should not see another proc request" ∧
      ¬ ProcDisciplined mesiNetwork.toAgentLaws privateSettings σ := by
  obtain ⟨arrived, transient, threw⟩ := askedTwice_throws
  refine ⟨askedTwice, Machine.run_attempt _ victimTwice_driven, threw, fun disciplined => ?_⟩
  obtain ⟨m, here, block⟩ := Option.map_eq_some_iff.mp arrived
  have rest := disciplined.atRest 0 m (by simp [CpuNode.requests, here])
  rw [block] at rest
  cases (congrArg View.want transient).symm.trans rest

end Coherence
