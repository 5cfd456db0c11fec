import MulticoreSim.Coherence.Stack
import MulticoreSim.Memory.Outstanding

/-! # One request for a block at a time

Where a core uses its L1 as its load-store units do, and its caches ask for nothing
but the blocks the core asks for, a block has at most one request between the L1 and
its agent, and none while the agent waits for the directory. No agent then sees a
request it has no answer to. Over a bottom L1 the caches never ask for more.
-/

namespace Coherence

open DirectoryProtocol Memory

variable {F : ProtocolFsm} {L : AgentLaws F} {s : Settings} {i : NodeId}

/-! ## How a core uses its L1 -/

/-- A store goes to a table without outstanding requests and a request leaves when its
    slot is ready; the L1's clock stays below the due cycle of what waits for a fill, and
    a block address survives the shift to a byte address. `Board.cores_drive` is that the
    out-of-order cores call it so. -/
def CoreEvent.Driven (s : Settings) (a : CoherenceAdapter) : CoreEvent → Prop
  | .issue req =>
      (req.op = .write → ∀ e ∈ a.l1d.mshr.table, e.valid = false) ∧
        a.l1d.getBlockAddr req.addr <<< s.blockSizeLog2 < 2 ^ 64
  | .complete id => (a.l1d.peek id).any (·.ready) = true
  | .tick => a.l1d.now + 1 < Cache.never

instance CoreEvent.decidableDriven (event : CoreEvent) (s : Settings) (a : CoherenceAdapter) :
    Decidable (event.Driven s a) := by
  cases event <;> unfold CoreEvent.Driven <;> infer_instance

/-- Every core uses its L1 so. -/
def Driven (s : Settings) (σ : System F adapterPort) : Action adapterPort → Prop
  | .external i event => event.Driven s (σ.cpus i).cpu
  | _ => True

instance (s : Settings) (σ : System F adapterPort) (a : Action adapterPort) : Decidable (Driven s σ a) := by
  cases a with
  | external i event => exact event.decidableDriven s (σ.cpus i).cpu
  | tick i | tock i | deliver i | dirTick | dirTock | dirDeliver src => exact isTrue trivial

/-! ## What the caches ask for -/

/-- The victim of the fill that waits is not asked for. -/
def CoherenceAdapter.FillsQuietly (s : Settings) (a : CoherenceAdapter) : Prop :=
  match a.cacheInNext with
  | none => True
  | some m =>
      let cacheBlock := toCacheBlock s m.block
      ∀ call ∈ (a.l1d.fill (β := .cache) (a.filledL2 cacheBlock) cacheBlock
          (a.pendingStores m.block)).calls, ∃ v dirty, call = .onEvict v dirty

/-- A request of the core asks for its own block, which it then waits for, or for nothing. -/
def CoherenceAdapter.AsksOwn (a : CoherenceAdapter) : CoreEvent → Prop
  | .issue req =>
      (a.l1d.issue (β := .cache) a.l2d req).1.calls = [] ∨
        Cache.Asks (a.l1d.getBlockAddr req.addr) (a.l1d.access (β := .cache) a.l2d req)
  | _ => True

/-- No `on_miss` is made but for the block of a request that then waits for it. -/
def AsksOwn (s : Settings) (σ : System F adapterPort) : Action adapterPort → Prop
  | .tick i => CoherenceAdapter.FillsQuietly s (σ.cpus i).cpu
  | .external i event => CoherenceAdapter.AsksOwn (σ.cpus i).cpu event
  | _ => True

instance (call : SinkCall) : Decidable (∃ v dirty, call = .onEvict v dirty) := by
  cases call with
  | onMiss b op => exact isFalse nofun
  | onEvict b dirty => exact isTrue ⟨_, _, rfl⟩

instance (s : Settings) (σ : System F adapterPort) (a : Action adapterPort) : Decidable (AsksOwn s σ a) := by
  cases a with
  | tick i =>
      unfold AsksOwn CoherenceAdapter.FillsQuietly
      simp only
      split <;> infer_instance
  | external i event =>
      unfold AsksOwn CoherenceAdapter.AsksOwn
      cases event <;> simp only <;> infer_instance
  | tock i | deliver i | dirTick | dirTock | dirDeliver src => exact isTrue trivial

theorem toCacheBlock_toByteBlock {cacheBlock : Nat} (fits : cacheBlock <<< s.blockSizeLog2 < 2 ^ 64) :
    toCacheBlock s (toByteBlock s cacheBlock) = cacheBlock := by
  unfold toCacheBlock toByteBlock shiftLeft64
  rw [Nat.mod_eq_of_lt fits, Nat.shiftLeft_shiftRight]

/-! ## Requests of a node -/

/-- Requests on their way to the agents, from the nearest to the farthest. -/
def CpuNode.requests (n : CpuNode F adapterPort) : List Message :=
  n.cpuIn.toList ++ (n.cpuInNext.toList ++ n.cpu.outboundProc)

/-- The blocks of the fill that waits and of the requests on their way. -/
def CpuNode.pending (n : CpuNode F adapterPort) : List BlockId :=
  (n.cpu.cacheInNext.toList ++ n.requests).map (·.block)

/-- A request moves up where there is room. -/
theorem CpuNode.requests_drain (n : CpuNode F adapterPort) :
    CpuNode.requests { n with
      cpu := (CoherenceAdapter.drain n.cpu n.cpuInNext).1
      cpuInNext := (CoherenceAdapter.drain n.cpu n.cpuInNext).2 } = n.requests := by
  unfold CpuNode.requests CoherenceAdapter.drain
  split
  · next slot out =>
      rw [slot, out]
      rfl
  · rfl

/-- What an agent's step leaves of the adapter. -/
theorem CpuNode.apply_fields (n : CpuNode F adapterPort) (b : BlockId) (a : AgentStep F.AgentState) :
    (n.apply s i b a).cpu =
      { n.cpu with
        cacheInNext := if a.toProc then some (Message.make i i b .data s) else n.cpu.cacheInNext } := by
  unfold CpuNode.apply
  cases a.toProc <;> rfl

theorem CpuNode.requests_apply (n : CpuNode F adapterPort) (b : BlockId) (a : AgentStep F.AgentState) :
    (n.apply s i b a).requests = n.requests := by
  simp only [CpuNode.requests, CpuNode.apply_fields]
  rfl

/-- The agents take the nearest request in, if one has come up. -/
theorem CpuNode.tickProc_takes {n n' : CpuNode F adapterPort} {st st' : CoherenceStats}
    (step : n.tickProc s i st = .ok (n', st')) :
    n' = n ∨ ∃ m a, F.processProcRequest (n.agents m.block) m.kind = .ok a ∧
      n' = { n.apply s i m.block a with cpuIn := none } ∧ n.requests = m :: n'.requests := by
  unfold CpuNode.tickProc at step
  split at step
  · cases step
    exact .inl rfl
  · next m here =>
      split at step
      · cases step
      · next a answered =>
          cases step
          refine .inr ⟨m, a, answered, rfl, ?_⟩
          simp only [CpuNode.requests, CpuNode.apply_fields, here]
          rfl

theorem CpuNode.requests_tock (n : CpuNode F adapterPort) : n.tock.requests.Sublist n.requests := by
  have moved : (n.cpuInNext.or n.cpuIn).toList.Sublist (n.cpuIn.toList ++ n.cpuInNext.toList) := by
    cases n.cpuInNext with
    | none => simp
    | some m => simp
  have joined := moved.append_right n.cpu.outboundProc
  rwa [List.append_assoc] at joined

/-- The requests of a node are for blocks apart, and their agents are at rest. -/
structure OneAsked (L : AgentLaws F) (n : CpuNode F adapterPort) : Prop where
  once : (n.requests.map (·.block)).Nodup
  atRest : ∀ m ∈ n.requests, (L.view (n.agents m.block)).want = .nothing
  kinds : ∀ m ∈ n.requests, m.kind = .load ∨ m.kind = .store

/-- What an agent is handed it has an answer to, whatever the port does before. -/
theorem OneAsked.answered {n : CpuNode F adapterPort} (one : OneAsked L n)
    (p : PortStep CoherenceAdapter) (st : CoherenceStats) :
    ∃ x, (n.portStep p).tickProc s i st = .ok x := by
  unfold CpuNode.tickProc
  simp only [CpuNode.portStep]
  split
  · exact ⟨_, rfl⟩
  · next m here =>
      have mem : m ∈ n.requests := by simp [CpuNode.requests, here]
      obtain ⟨a, answer⟩ := L.answersProc _ m.kind (one.atRest m mem) (one.kinds m mem)
      simp only [answer]
      exact ⟨_, rfl⟩

/-- The node is at most once under way for a block, and a slot waits for it. -/
structure OneEach (L : AgentLaws F) (s : Settings) (n : CpuNode F adapterPort) : Prop where
  once : n.pending.Nodup
  atRest : ∀ b ∈ n.pending, (L.view (n.agents b)).want = .nothing
  awaited : ∀ b, b ∈ n.pending ∨ (L.view (n.agents b)).want ≠ .nothing →
    toByteBlock s (toCacheBlock s b) = b ∧ n.cpu.l1d.Waiting (toCacheBlock s b)
  kinds : ∀ m ∈ n.requests, m.kind = .load ∨ m.kind = .store
  sound : n.cpu.l1d.Sound

variable {n n' : CpuNode F adapterPort}

/-- Nothing new is asked for, and what still waits keeps its slot. -/
theorem OneEach.fewer (one : OneEach L s n)
    (wants : ∀ b, (L.view (n'.agents b)).want = (L.view (n.agents b)).want)
    (pending : n'.pending.Sublist n.pending) (requests : ∀ m ∈ n'.requests, m ∈ n.requests)
    (sound : n'.cpu.l1d.Sound)
    (waiting : ∀ b, b ∈ n'.pending ∨ (L.view (n.agents b)).want ≠ .nothing →
      n.cpu.l1d.Waiting (toCacheBlock s b) → n'.cpu.l1d.Waiting (toCacheBlock s b)) :
    OneEach L s n' where
  once := one.once.sublist pending
  atRest b mem := (wants b).trans (one.atRest b (pending.subset mem))
  awaited b wanted := by
    rw [wants] at wanted
    obtain ⟨round, waits⟩ := one.awaited b (wanted.imp_left fun mem => pending.subset mem)
    exact ⟨round, waiting b wanted waits⟩
  kinds m mem := one.kinds m (requests m mem)
  sound := sound

/-! ## The adapter's calls -/

namespace CoherenceAdapter

variable (a : CoherenceAdapter)

/-- Evictions leave the adapter as it is. -/
theorem sink_evicts {calls : List SinkCall} (evicts : ∀ call ∈ calls, ∃ v dirty, call = .onEvict v dirty) :
    (a.sink s i calls).1 = a := by
  induction calls with
  | nil => rfl
  | cons call rest ih =>
      obtain ⟨v, dirty, rfl⟩ := evicts call List.mem_cons_self
      exact ih fun call mem => evicts call (List.mem_cons_of_mem _ mem)

theorem FillsQuietly.drain {a : CoherenceAdapter} (quiet : a.FillsQuietly s) (slot : Option Message) :
    (a.drain slot).1.FillsQuietly s := by
  unfold CoherenceAdapter.drain
  split <;> exact quiet

theorem fillL2_eq (cacheBlock : Nat) :
    (a.fillL2 s i cacheBlock).1 = { a with l2d := a.filledL2 cacheBlock } := by
  unfold fillL2 filledL2
  split
  · next none =>
      rw [none]
      exact congrArg (fun l2d => { a with l2d }) none
  · next l2 some =>
      rw [some]
      exact sink_evicts _ (Cache.fill_nothing_evicts false)

/-- What a fill that asks for nothing leaves of an adapter. -/
theorem fill_fields {m : Message} (deposit : a.cacheInNext = some m) (quiet : a.FillsQuietly s) :
    (a.fill s i m).1.cacheInNext = none ∧ (a.fill s i m).1.outboundProc = a.outboundProc ∧
      ∃ c, Cache.SameTable a.l1d c ∧ (a.fill s i m).1.l1d = c.markBlockReady (toCacheBlock s m.block) := by
  unfold FillsQuietly at quiet
  rw [deposit] at quiet
  obtain ⟨upper, -⟩ := fill_caches (a := a) (s := s) (i := i) m
  have filled : (a.fill s i m).1.cacheInNext = none ∧
      (a.fill s i m).1.outboundProc = a.outboundProc := by
    unfold fill settle
    simp only
    rw [fillL2_eq]
    exact ⟨congrArg (·.cacheInNext) (sink_evicts _ quiet),
      congrArg (·.outboundProc) (sink_evicts _ quiet)⟩
  exact ⟨filled.1, filled.2, _, Cache.fill_same _, upper⟩

/-- The network moves lines only. -/
theorem onNtwkEvent_fields (m : Message) :
    (a.onNtwkEvent s m).outboundProc = a.outboundProc ∧
      (a.onNtwkEvent s m).cacheInNext = a.cacheInNext ∧
      Cache.SameTable a.l1d (a.onNtwkEvent s m).l1d := by
  unfold onNtwkEvent
  simp only
  split
  case h_1 | h_2 => exact ⟨rfl, rfl, Cache.coherenceInvalidate_same⟩
  case h_3 =>
    split
    · exact ⟨rfl, rfl, .refl⟩
    · exact ⟨rfl, rfl, Cache.coherenceMark_same _⟩
  case h_4 => exact ⟨rfl, rfl, .refl⟩

end CoherenceAdapter

/-- A core's request asks for nothing, or for the block its new slot waits for. -/
theorem CoherenceAdapter.AsksOwn.issue {a : CoherenceAdapter} {req : MemReq} (own : a.AsksOwn (.issue req))
    (alone : req.op = .write → ∀ e ∈ a.l1d.mshr.table, e.valid = false) :
    (a.l1d.issue (β := .cache) a.l2d req).1.calls = [] ∨
      ∃ op, (a.l1d.issue (β := .cache) a.l2d req).1.calls = [.onMiss (a.l1d.getBlockAddr req.addr) op] ∧
        ¬ a.l1d.Waiting (a.l1d.getBlockAddr req.addr) ∧
        (a.l1d.issue (β := .cache) a.l2d req).1.cache.Waiting (a.l1d.getBlockAddr req.addr) := by
  refine own.elim .inl fun asks => Cache.issue_asks a.l2d req asks fun write e mem => ?_
  simp [MSHREntry.targets, alone write e mem]

namespace OneEach

/-- What the node sends does not matter. -/
theorem out (one : OneEach L s n) (sends : List Message) : OneEach L s { n with ntwkOutNext := sends } :=
  ⟨one.once, one.atRest, one.awaited, one.kinds, one.sound⟩

/-! ## Ticks of a node -/

theorem drain (one : OneEach L s n) :
    OneEach L s { n with
      cpu := (n.cpu.drain n.cpuInNext).1
      cpuInNext := (n.cpu.drain n.cpuInNext).2 } := by
  obtain ⟨l1d, l2d, deposit⟩ := CoherenceAdapter.drain_fields (a := n.cpu) n.cpuInNext
  refine one.fewer (fun _ => rfl) ?_ ?_ ?_ ?_
  · simp only [CpuNode.pending, CpuNode.requests_drain, deposit]
    exact List.Sublist.refl _
  · rw [CpuNode.requests_drain]
    exact fun m => id
  · simp only [l1d]
    exact one.sound
  · simp only [l1d]
    exact fun b _ => id

/-- The fill that waited is taken in. -/
theorem fill (one : OneEach L s n) {m : Message} (deposit : n.cpu.cacheInNext = some m)
    (quiet : n.cpu.FillsQuietly s) : OneEach L s { n with cpu := (n.cpu.fill s i m).1 } := by
  obtain ⟨taken, out, c, same, l1d⟩ := n.cpu.fill_fields (s := s) (i := i) deposit quiet
  have pending : n.pending = m.block :: n.requests.map (·.block) := by
    simp [CpuNode.pending, deposit]
  have fewer : CpuNode.pending { n with cpu := (n.cpu.fill s i m).1 } = n.requests.map (·.block) := by
    simp [CpuNode.pending, CpuNode.requests, taken, out]
  have once := one.once
  rw [pending, List.nodup_cons] at once
  have here : m.block ∈ n.pending := by simp [pending]
  refine one.fewer (fun _ => rfl) ?_ ?_ ?_ ?_
  · rw [fewer, pending]
    exact List.sublist_cons_self _ _
  · simp only [CpuNode.requests, out]
    exact fun m => id
  · simp only [l1d]
    exact MSHR.Sound.markBlockReady (one.sound.same same) _
  · intro b wanted waiting
    rw [fewer] at wanted
    have other : toCacheBlock s m.block ≠ toCacheBlock s b := by
      intro eq
      have same : m.block = b := by
        rw [← (one.awaited m.block (.inl here)).1, eq]
        refine (one.awaited b (wanted.imp_left fun mem => ?_)).1
        rw [pending]
        exact List.mem_cons_of_mem _ mem
      subst same
      rcases wanted with mem | wants
      · exact once.1 mem
      · exact wants (one.atRest _ here)
    simp only [l1d]
    exact MSHR.Waiting.markBlockReady (waiting.same same) (one.sound.same same) other

theorem port (one : OneEach L s n) (quiet : CoherenceAdapter.FillsQuietly s n.cpu) :
    OneEach L s (n.portStep (n.called s i)) := by
  have drained := one.drain
  have still : (n.cpu.drain n.cpuInNext).1.FillsQuietly s := quiet.drain _
  change OneEach L s (n.portStep (n.cpu.tick s i n.cpuInNext))
  unfold CoherenceAdapter.tick
  simp only
  split
  · exact drained.out _
  · next m deposit => exact (drained.fill deposit still).out _

/-- An agent moves on a message for a block with no other message under way. -/
theorem agent (one : OneEach L s n) {b : BlockId} {a : AgentStep F.AgentState}
    (agents : n'.agents = Function.update n.agents b a.state)
    (deposit : n'.cpu.cacheInNext =
      if a.toProc then some (Message.make i i b .data s) else n.cpu.cacheInNext)
    (requests : n'.requests.Sublist n.requests) (unasked : ∀ m ∈ n'.requests, m.block ≠ b)
    (unfilled : ∀ m, n.cpu.cacheInNext = some m → m.block ≠ b)
    (rest : a.toProc = true → (L.view a.state).want = .nothing)
    (known : b ∈ n.pending ∨ (L.view (n.agents b)).want ≠ .nothing)
    (same : Cache.SameTable n.cpu.l1d n'.cpu.l1d) : OneEach L s n' := by
  have pending : ∀ b' ∈ n'.pending, b' = b ∧ a.toProc = true ∨ b' ≠ b ∧ b' ∈ n.pending := by
    intro b' mem
    obtain ⟨m, inside, rfl⟩ := List.mem_map.mp mem
    rcases List.mem_append.mp inside with filled | asked
    · rw [deposit] at filled
      split at filled
      · next answered =>
          cases Option.mem_toList.mp filled
          exact .inl ⟨rfl, answered⟩
      · exact .inr ⟨unfilled m (Option.mem_toList.mp filled),
          List.mem_map_of_mem (List.mem_append_left _ filled)⟩
    · exact .inr ⟨unasked m asked,
        List.mem_map_of_mem (List.mem_append_right _ (requests.subset asked))⟩
  refine ⟨?_, fun b' mem => ?_, fun b' wanted => ?_, fun m mem => one.kinds m (requests.subset mem),
    one.sound.same same⟩
  · unfold CpuNode.pending
    rw [deposit]
    split
    · have fewer : (n'.requests.map (·.block)).Sublist n.pending :=
        (requests.trans (List.sublist_append_right _ _)).map _
      simp only [Option.toList_some, List.singleton_append, List.map_cons, List.nodup_cons]
      refine ⟨fun mem => ?_, one.once.sublist fewer⟩
      obtain ⟨m, asked, eq⟩ := List.mem_map.mp mem
      exact unasked m asked eq
    · exact one.once.sublist ((requests.append_left _).map _)
  · rw [agents]
    rcases pending b' mem with ⟨rfl, answered⟩ | ⟨ne, old⟩
    · rw [Function.update_self]
      exact rest answered
    · rw [Function.update_of_ne ne]
      exact one.atRest b' old
  · have before : b' ∈ n.pending ∨ (L.view (n.agents b')).want ≠ .nothing := by
      by_cases eq : b' = b
      · exact eq ▸ known
      · rw [agents, Function.update_of_ne eq] at wanted
        refine wanted.imp_left fun mem => ?_
        rcases pending b' mem with ⟨here, -⟩ | ⟨-, old⟩
        · exact absurd here eq
        · exact old
    obtain ⟨round, waiting⟩ := one.awaited b' before
    exact ⟨round, waiting.same same⟩

/-- The agents take the request in that has come up. -/
theorem proc (one : OneEach L s n) {st st' : CoherenceStats} (step : n.tickProc s i st = .ok (n', st')) :
    OneEach L s n' := by
  rcases CpuNode.tickProc_takes step with rfl | ⟨m, a, answered, rfl, old⟩
  · exact one
  · have fields := CpuNode.apply_fields (s := s) (i := i) n m.block a
    have once := one.once
    simp only [CpuNode.pending, old, List.map_append, List.map_cons, List.nodup_append,
      List.nodup_cons] at once
    obtain ⟨-, ⟨alone, -⟩, apart⟩ := once
    refine one.agent (i := i) (b := m.block) (a := a) rfl (by rw [fields]) ?_ ?_ ?_ ?_ (.inl ?_)
      (by rw [fields]; exact .refl)
    · rw [old]
      exact List.sublist_cons_self _ _
    · intro m' mem eq
      have listed := List.mem_map_of_mem (f := (·.block)) mem
      rw [eq] at listed
      exact alone listed
    · intro m' filled eq
      refine apart m'.block (List.mem_map_of_mem (Option.mem_toList.mpr filled)) m.block ?_ eq
      exact List.mem_cons_self
    · intro toProc
      obtain ⟨rest, ⟨-, -, view, -⟩ | ⟨r, -, not, -⟩⟩ := L.proc _ _ _ answered
      · rw [view]
        exact rest
      · cases toProc.symm.trans not
    · simp [CpuNode.pending, old]

theorem oneAsked (one : OneEach L s n) : OneAsked L n := by
  have sub : (n.requests.map (·.block)).Sublist n.pending := (List.sublist_append_right _ _).map _
  exact ⟨one.once.sublist sub, fun m mem => one.atRest _ (sub.subset (List.mem_map_of_mem mem)), one.kinds⟩

/-- The port hears of the message. -/
theorem event (one : OneEach L s n) (m : Message) :
    OneEach L s { n with cpu := n.cpu.onNtwkEvent s m, ntwkIn := none } := by
  obtain ⟨out, deposit, same⟩ := n.cpu.onNtwkEvent_fields (s := s) m
  refine one.fewer (fun _ => rfl) ?_ ?_ (one.sound.same same) fun b _ waiting => waiting.same same
  · simp only [CpuNode.pending, CpuNode.requests, out, deposit]
    exact List.Sublist.refl _
  · simp only [CpuNode.requests, out]
    exact fun m => id

/-- The agents take a message from the network in. -/
theorem ntwk (one : OneEach L s n) {st st' : CoherenceStats} (step : n.tickNtwk s i st = .ok (n', st')) :
    OneEach L s n' := by
  unfold CpuNode.tickNtwk at step
  split at step
  · cases step
    exact one
  · next m here =>
      split at step
      · cases step
      · next a answered =>
          cases step
          have fields := CpuNode.apply_fields (s := s) (i := i) n m.block a
          have requests := CpuNode.requests_apply (s := s) (i := i) n m.block a
          suffices OneEach L s (n.apply s i m.block a) from this.event m
          rcases L.ntwk _ _ _ answered with ⟨g, -, wants, -, toProc, view⟩ | ⟨toProc, kept⟩
          · have idle : m.block ∉ n.pending := fun mem => wants (one.atRest _ mem)
            refine one.agent (i := i) (b := m.block) (a := a) rfl (by rw [fields]) ?_ ?_ ?_ ?_ (.inr wants)
              (by rw [fields]; exact .refl)
            · rw [requests]
            · rw [requests]
              exact fun m' mem eq => idle (eq ▸ List.mem_map_of_mem (List.mem_append_right _ mem))
            · exact fun m' filled eq => idle (eq ▸ List.mem_map_of_mem
                (List.mem_append_left _ (Option.mem_toList.mpr filled)))
            · intro _
              rw [view]
          · have deposit : (n.apply s i m.block a).cpu.cacheInNext = n.cpu.cacheInNext := by
              rw [fields]
              simp [toProc]
            refine one.fewer (fun b => ?_) ?_ ?_ (by rw [fields]; exact one.sound)
              (fun b _ => by rw [fields]; exact id)
            · by_cases eq : b = m.block
              · subst eq
                simp only [CpuNode.apply, Function.update_self]
                rcases kept with ⟨-, -, -, view⟩ | ⟨-, -, -, view⟩ | ⟨-, -, -, -, view⟩ |
                  ⟨-, -, -, -, view⟩ <;> rw [view]
              · simp [CpuNode.apply, Function.update_of_ne eq]
            · simp only [CpuNode.pending, requests, deposit]
              exact List.Sublist.refl _
            · rw [requests]
              exact fun m => id

theorem tick (one : OneEach L s n) (quiet : CoherenceAdapter.FillsQuietly s n.cpu)
    {st st' : CoherenceStats} (step : n.tick s i st = .ok (n', st')) : OneEach L s n' := by
  unfold CpuNode.tick at step
  simp only at step
  split at step
  · cases step
  · next n₁ st₁ asked => exact ((one.port quiet).proc asked).ntwk step

theorem tock (one : OneEach L s n) : OneEach L s n.tock := by
  have requests := n.requests_tock
  exact one.fewer (fun _ => rfl) ((requests.append_left _).map _) requests.subset one.sound
    fun _ _ => id

theorem deliver (one : OneEach L s n) (m : Message) : OneEach L s { n with ntwkInNext := some m } :=
  ⟨one.once, one.atRest, one.awaited, one.kinds, one.sound⟩

/-! ## The core's side -/

/-- Nothing is under way for a block that no slot waits for. -/
theorem unasked (one : OneEach L s n) {cacheBlock : Nat} (fits : cacheBlock <<< s.blockSizeLog2 < 2 ^ 64)
    (unused : ¬ n.cpu.l1d.Waiting cacheBlock) :
    toByteBlock s cacheBlock ∉ n.pending ∧
      (L.view (n.agents (toByteBlock s cacheBlock))).want = .nothing := by
  let b := toByteBlock s cacheBlock
  have fresh : ¬ (b ∈ n.pending ∨ (L.view (n.agents b)).want ≠ .nothing) := by
    intro wanted
    have waits := (one.awaited b wanted).2
    rw [toCacheBlock_toByteBlock fits] at waits
    exact unused waits
  rwa [not_or, not_not] at fresh

/-- A request that goes to the agents is the only one for its block. -/
theorem miss (one : OneEach L s n) {c : Cache} {l2d : Option Cache} {cacheBlock : Nat} (op : Op)
    (fits : cacheBlock <<< s.blockSizeLog2 < 2 ^ 64) (unused : ¬ n.cpu.l1d.Waiting cacheBlock)
    (sound : c.Sound)
    (waiting : ∀ b, n.cpu.l1d.Waiting b → c.Waiting b) (here : c.Waiting cacheBlock) :
    OneEach L s { n with
      cpu := CoherenceAdapter.onMiss s i { n.cpu with l1d := c, l2d } cacheBlock op } := by
  have round := toCacheBlock_toByteBlock fits
  let b := toByteBlock s cacheBlock
  have fresh : b ∉ n.pending ∧ (L.view (n.agents b)).want = .nothing := one.unasked fits unused
  let kind := if op.isWrite then MessageKind.store else .load
  have requests : CpuNode.requests { n with
      cpu := CoherenceAdapter.onMiss s i { n.cpu with l1d := c, l2d } cacheBlock op } =
        n.requests ++ [Message.make i i b kind s] := by
    simp [CpuNode.requests, CoherenceAdapter.onMiss, b, kind]
  have pending : CpuNode.pending { n with
      cpu := CoherenceAdapter.onMiss s i { n.cpu with l1d := c, l2d } cacheBlock op } =
        n.pending ++ [b] := by
    unfold CpuNode.pending
    rw [requests]
    simp [CoherenceAdapter.onMiss]
  refine ⟨?_, fun b' mem => ?_, fun b' wanted => ?_, fun m mem => ?_, sound⟩
  · rw [pending]
    exact List.nodup_append.mpr ⟨one.once, List.nodup_singleton _,
      fun x mem y last eq => fresh.1 ((eq.trans (List.mem_singleton.mp last)) ▸ mem)⟩
  · rw [pending] at mem
    rcases List.mem_append.mp mem with old | new
    · exact one.atRest b' old
    · cases List.mem_singleton.mp new
      exact fresh.2
  · rw [pending] at wanted
    by_cases eq : b' = b
    · subst eq
      rw [round]
      exact ⟨rfl, here⟩
    · obtain ⟨back, waits⟩ := one.awaited b' (wanted.imp_left fun mem => by simpa [eq] using mem)
      exact ⟨back, waiting _ waits⟩
  · rw [requests] at mem
    rcases List.mem_append.mp mem with old | new
    · exact one.kinds m old
    · cases List.mem_singleton.mp new
      cases op <;> simp [kind, Op.isWrite]

theorem core (one : OneEach L s n) {event : CoreEvent} (driven : event.Driven s n.cpu)
    (own : n.cpu.AsksOwn event) :
    OneEach L s (n.portStep (CoherenceAdapter.core n.cpu s i n.cpuInNext event)) := by
  cases event with
  | issue req =>
      obtain ⟨alone, fits⟩ := driven
      obtain ⟨sound, waiting, -, -⟩ := Cache.issue_keeps (β := .cache) n.cpu.l2d req one.sound
      simp only [CoherenceAdapter.core, CoherenceAdapter.settle]
      rcases own.issue alone with calls | ⟨op, calls, unused, here⟩
      · rw [calls]
        have kept : OneEach L s { n with
            cpu := { n.cpu with
              l1d := (n.cpu.l1d.issue (β := .cache) n.cpu.l2d req).1.cache
              l2d := (n.cpu.l1d.issue (β := .cache) n.cpu.l2d req).1.below } } :=
          one.fewer (fun _ => rfl) (List.Sublist.refl _) (fun _ => id) sound fun b _ => waiting _
        exact kept.out _
      · rw [calls]
        exact (one.miss (i := i) op fits unused sound waiting here).out _
  | complete id =>
      obtain ⟨e, found, ready⟩ : ∃ e, n.cpu.l1d.peek id = some e ∧ e.ready = true := by
        exact (Option.any_eq_true _ _).mp driven
      refine one.fewer (fun _ => rfl) (List.Sublist.refl _) (fun _ mem => mem)
        (MSHR.Sound.release one.sound id) fun b _ waiting => ?_
      exact MSHR.Waiting.release waiting one.sound found ready
  | tick =>
      refine one.fewer (fun _ => rfl) (List.Sublist.refl _) (fun _ => id)
        (MSHR.Sound.tick one.sound _) fun b _ waiting => ?_
      exact MSHR.Waiting.tick waiting driven

theorem initial (s : Settings) (l1 l2 : Config) : OneEach L s { cpu := CoherenceAdapter.wire s l1 l2 } := by
  have empty : CpuNode.pending { cpu := CoherenceAdapter.wire s l1 l2 : CpuNode F adapterPort } = [] ∧
      CpuNode.requests { cpu := CoherenceAdapter.wire s l1 l2 : CpuNode F adapterPort } = [] := by
    unfold CoherenceAdapter.wire
    split <;> exact ⟨rfl, rfl⟩
  refine ⟨?_, fun b mem => ?_, fun b wanted => ?_, fun m mem => ?_, ?_⟩
  · rw [empty.1]
    exact List.nodup_nil
  · rw [empty.1] at mem
    cases mem
  · rcases wanted with mem | wants
    · rw [empty.1] at mem
      cases mem
    · exact absurd (congrArg View.want L.view_initial) wants
  · rw [empty.2] at mem
    cases mem
  · simp only [CoherenceAdapter.wire]
    split <;> exact MSHR.Sound.make _

end OneEach

/-! ## Runs -/

/-- Every node of a driven run in which the caches ask for nothing else is at most once under
    way for a block. -/
theorem oneEach_run {ok : System F adapterPort → Action adapterPort → Prop} {l1 l2 : Config}
    {σ : System F adapterPort} (driven : ∀ σ a, ok σ a → Driven s σ a)
    (own : ∀ σ a, ok σ a → AsksOwn s σ a)
    (run : (System.machine F adapterPort s).Run ok (fullMode F s l1 l2) σ) :
    ∀ i, OneEach L s (σ.cpus i) := by
  refine run.invariant (I := fun σ => ∀ i, OneEach L s (σ.cpus i)) (fun i => .initial s l1 l2) ?_
  intro σ a σ' each guarded step j
  have one := each j
  generalize eq : σ'.cpus j = n
  have moved : System.NodeStep s σ j a n := eq ▸ System.node_step step j
  cases moved with
  | idle => exact one
  | tick ticked => exact one.tick (own σ _ guarded) ticked
  | tock => exact one.tock
  | deliver m => exact one.deliver m
  | external called =>
      cases called
      exact one.core (driven σ _ guarded) (own σ _ guarded)

/-- An L1 over nothing asks for nothing else. -/
theorem asksOwn_shared {σ : System F adapterPort} {l1 l2 : Config} (shared : s.cacheMode = .sharedLls)
    (wired : ∀ i, CoherenceAdapter.Wired s l1 l2 (σ.cpus i).cpu) (a : Action adapterPort) :
    AsksOwn s σ a := by
  have stack (i : NodeId) : (CoherenceAdapter.l1d (σ.cpus i).cpu).cfg.coherenceSink = true ∧
      CoherenceAdapter.l2d (σ.cpus i).cpu = none := by
    have upper := (wired i).upper
    have lower := (wired i).lower
    simp only [CoherenceAdapter.wire, shared, Option.map_none, Option.map_eq_none_iff] at upper lower
    rw [upper]
    exact ⟨rfl, lower⟩
  cases a with
  | tick i =>
      obtain ⟨bottom, alone⟩ := stack i
      show CoherenceAdapter.FillsQuietly s (σ.cpus i).cpu
      unfold CoherenceAdapter.FillsQuietly CoherenceAdapter.filledL2
      split
      · trivial
      · rw [alone]
        exact (Cache.fill_evicts bottom _).1
  | external i event =>
      obtain ⟨bottom, alone⟩ := stack i
      cases event with
      | issue req =>
          refine .inr ?_
          rw [alone]
          exact (Cache.access_asks req bottom).1
      | complete id => trivial
      | tick => trivial
  | tock i | deliver i | dirTick | dirTock | dirDeliver src => trivial

/-- Over bottom L1s a driven run is one in which the caches ask for nothing else. -/
theorem ownRun_of_shared {l1 l2 : Config} {σ : System F adapterPort} (shared : s.cacheMode = .sharedLls)
    (run : (System.machine F adapterPort s).Run (Driven s) (fullMode F s l1 l2) σ) :
    (System.machine F adapterPort s).Run (fun σ a => Driven s σ a ∧ AsksOwn s σ a)
      (fullMode F s l1 l2) σ := by
  refine run.mono_under (J := fun σ => ∀ i, CoherenceAdapter.Wired s l1 l2 (σ.cpus i).cpu)
    (fun σ before i => ?_) fun σ a each guarded => ⟨guarded, asksOwn_shared shared each a⟩
  exact (CoherenceAdapter.wired_kept s l1 l2).run (fun _ => ⟨rfl, rfl⟩) before.reachable i

/-- In a driven run over bottom L1s no agent throws on a request of its own node. -/
theorem procAnswered_run {ok : System F adapterPort → Action adapterPort → Prop} {l1 l2 : Config}
    {σ : System F adapterPort} (L : AgentLaws F) (shared : s.cacheMode = .sharedLls)
    (driven : ∀ σ a, ok σ a → Driven s σ a)
    (run : (System.machine F adapterPort s).Run ok (fullMode F s l1 l2) σ) :
    ∀ i st, ∃ x, ((σ.cpus i).portStep ((σ.cpus i).called s i)).tickProc s i st = .ok x := by
  intro i st
  have own := ownRun_of_shared shared (run.mono driven)
  have one := oneEach_run (L := L) (fun σ a meets => meets.1) (fun σ a meets => meets.2) own i
  exact one.oneAsked.answered _ st

end Coherence
