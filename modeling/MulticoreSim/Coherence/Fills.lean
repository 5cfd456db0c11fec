import MulticoreSim.Coherence.ExclusiveGrants

/-! # Answers and fills

Between an agent's answer to its processor and the fill of the block stands a
slot for one message. A node's two halves may both answer in one tick; where
they do, the first answer never becomes a fill.
-/

namespace Coherence

open DirectoryProtocol Memory

variable {F : ProtocolFsm} {L : AgentLaws F} {s : Settings} {i : NodeId}

/-! ## Answers -/

namespace CpuNode

variable {π : CpuPort}

/-- `send_DATA_proc` for the request that is taken in. -/
def procAnswer (n : CpuNode F π) : List BlockId :=
  match n.cpuIn with
  | none => []
  | some m =>
      match F.processProcRequest (n.agents m.block) m.kind with
      | .error _ => []
      | .ok a => if a.toProc then [m.block] else []

/-- `send_DATA_proc` for the message that is taken in. -/
def ntwkAnswer (n : CpuNode F π) : List BlockId :=
  match n.ntwkIn with
  | none => []
  | some m =>
      match F.processNtwkRequest (n.agents m.block) m.kind with
      | .error _ => []
      | .ok a => if a.toProc then [m.block] else []

/-- The block of the fill that waits in `cache_in_next`. -/
def waitingFill (n : CpuNode F adapterPort) : List BlockId := n.cpu.cacheInNext.toList.map (·.block)

end CpuNode

/-- A node beside the answers of its agents and the fills of its adapter. -/
structure FillLog (F : ProtocolFsm) where
  node : CpuNode F adapterPort
  answered : List BlockId := []
  filled : List BlockId := []

/-- What may happen to a node; any message may come from the network. -/
inductive NodeAction where
  | tick
  | tock
  | deliver (m : Message)
  | external (event : CoreEvent)
  deriving DecidableEq, Repr

namespace FillLog

/-- A node's actions. A fill is the half of `CoherenceAdapter::tick` that finds the slot
    in use. -/
def step (s : Settings) (id : NodeId) (l : FillLog F) : NodeAction → Except String (FillLog F)
  | .tick =>
      match (l.node.portStep (l.node.called s id)).tickProc s id {} with
      | .error what => .error what
      | .ok (n, st) =>
          match n.tickNtwk s id st with
          | .error what => .error what
          | .ok (n', _) =>
              .ok
                { node := n'
                  answered := l.answered ++ (l.node.procAnswer ++ n.ntwkAnswer)
                  filled := l.filled ++ l.node.waitingFill }
  | .tock => .ok { l with node := l.node.tock }
  | .deliver m => .ok { l with node := { l.node with ntwkInNext := some m } }
  | .external event =>
      .ok { l with node := l.node.portStep (CoherenceAdapter.core l.node.cpu s id l.node.cpuInNext event) }

def machine (F : ProtocolFsm) (s : Settings) (id : NodeId) : Machine (FillLog F) NodeAction String :=
  ⟨step s id⟩

/-- A node before the first cycle. -/
def start (F : ProtocolFsm) (s : Settings) (l1 l2 : Config) : FillLog F :=
  { node := { cpu := CoherenceAdapter.wire s l1 l2 } }

/-- Every answer has become one fill, in order, but for the one that waits. -/
def Balanced (l : FillLog F) : Prop := l.answered = l.filled ++ l.node.waitingFill

end FillLog

/-! ## What moves the slot -/

namespace CoherenceAdapter

theorem sink_slot (a : CoherenceAdapter) (calls : List SinkCall) :
    (a.sink s i calls).1.cacheInNext = a.cacheInNext := by
  induction calls generalizing a with
  | nil => rfl
  | cons call rest ih =>
      cases call with
      | onMiss blockAddr op => exact ih _
      | onEvict blockAddr dirty => exact ih a

theorem fill_slot (a : CoherenceAdapter) (m : Message) : (a.fill s i m).1.cacheInNext = none := by
  have lower (a : CoherenceAdapter) (cacheBlock : Nat) :
      (a.fillL2 s i cacheBlock).1.cacheInNext = a.cacheInNext := by
    unfold fillL2
    split
    · rfl
    · exact sink_slot _ _
  unfold fill
  exact (sink_slot _ _).trans (lower _ _)

/-- A tick takes the waiting fill in. -/
theorem tick_slot (a : CoherenceAdapter) (slot : Option Message) :
    (a.tick s i slot).state.cacheInNext = none := by
  unfold tick
  simp only
  split
  · assumption
  · exact fill_slot _ _

theorem core_slot (a : CoherenceAdapter) (slot : Option Message) (event : CoreEvent) :
    (a.core s i slot event).state.cacheInNext = a.cacheInNext := by
  cases event with
  | issue req => exact sink_slot _ _
  | complete id => rfl
  | tick => rfl

theorem onNtwkEvent_slot (a : CoherenceAdapter) (m : Message) :
    (a.onNtwkEvent s m).cacheInNext = a.cacheInNext := by
  unfold onNtwkEvent
  simp only
  repeat' split
  all_goals rfl

end CoherenceAdapter

namespace CpuNode

variable {n n' : CpuNode F adapterPort} {st st' : CoherenceStats}

/-- An answer goes to the slot, whatever is there. -/
theorem apply_waitingFill (n : CpuNode F adapterPort) (b : BlockId) (a : AgentStep F.AgentState) :
    (n.apply s i b a).waitingFill = if a.toProc then [b] else n.waitingFill := by
  unfold waitingFill CpuNode.apply
  cases a.toProc <;> rfl

theorem tickProc_waitingFill (step : n.tickProc s i st = .ok (n', st')) :
    n'.waitingFill = if n.procAnswer = [] then n.waitingFill else n.procAnswer := by
  unfold CpuNode.tickProc at step
  split at step
  · next idle =>
      cases step
      have silent : n.procAnswer = [] := by simp only [procAnswer, idle]
      rw [if_pos silent]
  · next m here =>
      split at step
      · cases step
      · next a answered =>
          cases step
          have own : n.procAnswer = if a.toProc then [m.block] else [] := by
            simp only [procAnswer, here, answered]
          rw [own]
          refine (apply_waitingFill n m.block a).trans ?_
          split <;> simp

theorem tickNtwk_waitingFill (step : n.tickNtwk s i st = .ok (n', st')) :
    n'.waitingFill = if n.ntwkAnswer = [] then n.waitingFill else n.ntwkAnswer := by
  unfold CpuNode.tickNtwk at step
  split at step
  · next idle =>
      cases step
      have silent : n.ntwkAnswer = [] := by simp only [ntwkAnswer, idle]
      rw [if_pos silent]
  · next m here =>
      split at step
      · cases step
      · next a answered =>
          cases step
          have own : n.ntwkAnswer = if a.toProc then [m.block] else [] := by
            simp only [ntwkAnswer, here, answered]
          rw [own]
          have kept : CpuNode.waitingFill { n.apply s i m.block a with
              cpu := adapterPort.onNtwkEvent s (n.apply s i m.block a).cpu m
              ntwkIn := none } = (n.apply s i m.block a).waitingFill :=
            congrArg (fun slot => slot.toList.map (·.block)) (CoherenceAdapter.onNtwkEvent_slot _ m)
          refine (kept.trans (apply_waitingFill n m.block a)).trans ?_
          split <;> simp

/-- The processor's half leaves the message from the network for the other half. -/
theorem tickProc_ntwkIn (step : n.tickProc s i st = .ok (n', st')) : n'.ntwkIn = n.ntwkIn := by
  unfold CpuNode.tickProc at step
  split at step
  · cases step
    rfl
  · split at step
    · cases step
    · cases step
      rfl

/-- An agent answers its processor on every grant it takes, and on nothing else. -/
theorem ntwkAnswer_iff (L : AgentLaws F) (step : n.tickNtwk s i st = .ok (n', st')) :
    n.ntwkAnswer ≠ [] ↔ ∃ m, n.ntwkIn = some m ∧ m.kind.IsGrant := by
  unfold CpuNode.tickNtwk at step
  unfold ntwkAnswer
  cases here : n.ntwkIn with
  | none => simp
  | some m =>
      simp only [here] at step
      simp only [Option.some.injEq, exists_eq_left']
      cases answered : F.processNtwkRequest (n.agents m.block) m.kind with
      | error what =>
          rw [answered] at step
          cases step
      | ok a =>
          change (if a.toProc then [m.block] else []) ≠ [] ↔ m.kind.IsGrant
          rcases L.ntwk _ _ _ answered with ⟨g, kind, -, -, toProc, -⟩ | ⟨toProc, orders⟩
          · rw [toProc, kind]
            cases g <;> simp [MessageKind.IsGrant, grantKind]
          · rw [toProc]
            rcases orders with ⟨kind, -⟩ | ⟨kind, -⟩ | ⟨kind, -⟩ | ⟨kind, -⟩ <;> simp [MessageKind.IsGrant, kind]

/-- The request taken in is one that its agent answers at once, and the message from the
    network is a grant. -/
def Collides (n : CpuNode F adapterPort) : Prop :=
  n.procAnswer ≠ [] ∧ ∃ m, n.ntwkIn = some m ∧ m.kind.IsGrant

instance (n : CpuNode F adapterPort) : Decidable n.Collides := by
  refine decidable_of_iff (n.procAnswer ≠ [] ∧ n.ntwkIn.any (fun m => decide (m.kind.IsGrant)) = true) ?_
  unfold Collides
  simp [Option.any_eq_true]

end CpuNode

/-! ## Runs -/

namespace FillLog

variable {l l' : FillLog F}

/-- A tick keeps the balance if its halves do not both answer, and only then. -/
theorem Balanced.tick_iff (L : AgentLaws F) (balanced : l.Balanced)
    (step : l.step s i .tick = .ok l') : l'.Balanced ↔ ¬ l.node.Collides := by
  simp only [FillLog.step] at step
  split at step
  · cases step
  · next n st proc =>
      split at step
      · cases step
      · next n' st' ntwk =>
          cases step
          have emptied : (l.node.portStep (l.node.called s i)).waitingFill = [] :=
            congrArg (fun slot => slot.toList.map (·.block)) (CoherenceAdapter.tick_slot _ _)
          have first : n.waitingFill = l.node.procAnswer := by
            refine (CpuNode.tickProc_waitingFill proc).trans ?_
            rw [emptied]
            split
            · next silent => exact silent.symm
            · rfl
          have second := CpuNode.tickNtwk_waitingFill ntwk
          have collides : l.node.Collides ↔ l.node.procAnswer ≠ [] ∧ n.ntwkAnswer ≠ [] := by
            unfold CpuNode.Collides
            rw [CpuNode.ntwkAnswer_iff L ntwk, CpuNode.tickProc_ntwkIn proc]
            rfl
          unfold Balanced at balanced ⊢
          rw [collides, second, first, balanced, List.append_cancel_left_eq]
          by_cases quiet : n.ntwkAnswer = [] <;> simp [quiet]

theorem Balanced.start (s : Settings) (l1 l2 : Config) : (FillLog.start F s l1 l2).Balanced := by
  unfold Balanced CpuNode.waitingFill FillLog.start CoherenceAdapter.wire
  cases s.cacheMode <;> rfl

/-- Every action but a tick whose halves both answer keeps the balance. -/
theorem Balanced.step (L : AgentLaws F) (balanced : l.Balanced) {a : NodeAction}
    (apart : a = .tick → ¬ l.node.Collides) (step : l.step s i a = .ok l') : l'.Balanced := by
  cases a with
  | tick => exact (balanced.tick_iff L step).mpr (apart rfl)
  | tock | deliver m =>
      cases step
      exact balanced
  | external event =>
      cases step
      refine balanced.trans (congrArg (l.filled ++ ·) ?_)
      exact congrArg (fun slot => slot.toList.map (·.block))
        (CoherenceAdapter.core_slot (s := s) (i := i) l.node.cpu l.node.cpuInNext event).symm

/-- In every run of a node whose ticks do not answer in both halves, every answer of an
    agent becomes exactly one fill, in order; in each state reached the next tick loses a
    fill if and only if both its halves answer. -/
theorem no_lost_fill (p : Protocol) (s : Settings) (id : NodeId) (l1 l2 : Config) :
    ∀ l, (machine p.fsm s id).Run (fun l a => a = .tick → ¬ l.node.Collides) (start p.fsm s l1 l2) l →
      l.Balanced ∧ ∀ l', l.step s id .tick = .ok l' → (l'.Balanced ↔ ¬ l.node.Collides) := by
  intro l run
  have balanced : l.Balanced := run.invariant (.start s l1 l2) fun _ _ _ balanced apart step =>
    balanced.step p.laws.toAgentLaws apart step
  exact ⟨balanced, fun l' step => balanced.tick_iff p.laws.toAgentLaws step⟩

def crowdedSettings : Settings :=
  { protocol := .MESI, numProcs := 2, cacheMode := .sharedLls }

/-- The grant of a block to node 0. -/
def grantOf (kind : MessageKind) (block : BlockId) : NodeAction :=
  .deliver (Message.make 2 0 block kind crowdedSettings)

/-- A miss that is granted and filled. -/
def granted (addr : Nat) : List NodeAction :=
  [.external (.issue { addr }), .tick, .tock, .tick, grantOf .dataE addr, .tock, .tick, .tock, .tick,
    .tock]

/-- Two blocks of one set are missed on, and the second takes the first one's place. A miss
    on a third is granted just when a load of the first comes up, which its agent answers. -/
def crowd : List NodeAction :=
  granted 0 ++ [.external (.complete 1)] ++ granted 128 ++
    [.external (.complete 2), .external (.issue { addr := 256 }), .tick, .tock, .tick, .tock,
      .external (.issue { addr := 0 }), .tick, grantOf .dataE 256, .tock]

def crowded : FillLog mesi :=
  (machine mesi crowdedSettings 0).attempt (start mesi crowdedSettings tinyL1 {}) crowd

theorem no_lost_fill_crowded : crowded.Balanced :=
  (no_lost_fill .MESI crowdedSettings 0 tinyL1 {} crowded
    (Machine.run_attempt _ (by decide +kernel))).1

/-- The grant takes the place of the answer. -/
theorem lost_fill :
    ∃ l, (machine mesi crowdedSettings 0).Reachable (start mesi crowdedSettings tinyL1 {}) l ∧
      l.answered = [0, 128, 0, 256] ∧ l.filled = [0, 128] ∧ l.node.waitingFill = [256] ∧
      ¬ l.Balanced := by
  let l := (machine mesi crowdedSettings 0).attempt (start mesi crowdedSettings tinyL1 {})
    (crowd ++ [.tick])
  obtain ⟨answered, filled, waiting⟩ :
      l.answered = [0, 128, 0, 256] ∧ l.filled = [0, 128] ∧ l.node.waitingFill = [256] := by
    decide +kernel
  refine ⟨l, Machine.reachable_attempt _ _, answered, filled, waiting, ?_⟩
  unfold Balanced
  rw [answered, filled, waiting]
  decide

/-! ## Nodes of a full-mode run -/

theorem tickProc_stats {n n' : CpuNode F adapterPort} {st st' : CoherenceStats}
    (step : n.tickProc s i st = .ok (n', st')) (other : CoherenceStats) :
    ∃ x, n.tickProc s i other = .ok (n', x) := by
  unfold CpuNode.tickProc at step ⊢
  split at step
  · cases step
    exact ⟨_, rfl⟩
  · split at step
    · cases step
    · cases step
      exact ⟨_, rfl⟩

theorem tickNtwk_stats {n n' : CpuNode F adapterPort} {st st' : CoherenceStats}
    (step : n.tickNtwk s i st = .ok (n', st')) (other : CoherenceStats) :
    ∃ x, n.tickNtwk s i other = .ok (n', x) := by
  unfold CpuNode.tickNtwk at step ⊢
  split at step
  · cases step
    exact ⟨_, rfl⟩
  · split at step
    · cases step
    · cases step
      exact ⟨_, rfl⟩

/-- The log's tick is the node's. -/
theorem step_tick {l : FillLog F} {n : CpuNode F adapterPort} {st st' : CoherenceStats}
    (step : l.node.tick s i st = .ok (n, st')) : ∃ l', l.step s i .tick = .ok l' ∧ l'.node = n := by
  unfold CpuNode.tick at step
  simp only at step
  split at step
  · cases step
  · next n₁ st₁ proc =>
      obtain ⟨x, proc'⟩ := tickProc_stats proc {}
      obtain ⟨y, ntwk'⟩ := tickNtwk_stats step x
      have proc' : (l.node.portStep (l.node.called s i)).tickProc s i {} = .ok (n₁, x) := proc'
      refine ⟨{ node := n
                answered := l.answered ++ (l.node.procAnswer ++ n₁.ntwkAnswer)
                filled := l.filled ++ l.node.waitingFill }, ?_, rfl⟩
      simp only [FillLog.step, proc', ntwk']

/-- Every node of a full-mode run takes a run of its own. -/
theorem of_run {ok : System F adapterPort → Action adapterPort → Prop} {l1 l2 : Config}
    {σ : System F adapterPort} (apart : ∀ σ i, ok σ (.tick i) → ¬ (σ.cpus i).Collides)
    (run : (System.machine F adapterPort s).Run ok (fullMode F s l1 l2) σ) (i : NodeId) :
    ∃ l, (machine F s i).Run (fun l a => a = .tick → ¬ l.node.Collides) (start F s l1 l2) l ∧
      l.node = σ.cpus i := by
  refine run.invariant (I := fun σ => ∃ l, (machine F s i).Run (fun l a => a = .tick → ¬ l.node.Collides)
    (start F s l1 l2) l ∧ l.node = σ.cpus i) ⟨_, .start, rfl⟩ ?_
  rintro σ a σ' ⟨l, before, node⟩ guarded step
  generalize eq : σ'.cpus i = n
  have moved : System.NodeStep s σ i a n := eq ▸ System.node_step step i
  cases moved with
  | idle => exact ⟨l, before, node⟩
  | tick ticked =>
      rw [← node] at ticked
      obtain ⟨l', taken, same⟩ := step_tick ticked
      exact ⟨l', before.step (a := .tick) (fun _ => node ▸ apart σ i guarded) taken, same⟩
  | tock => exact ⟨_, before.step (a := .tock) nofun rfl, congrArg CpuNode.tock node⟩
  | deliver m =>
      exact ⟨_, before.step (a := .deliver m) nofun rfl,
        congrArg (fun n : CpuNode F adapterPort => { n with ntwkInNext := some m }) node⟩
  | @external event p called =>
      cases called
      rw [← node]
      exact ⟨_, before.step (a := .external event) nofun rfl, rfl⟩

end FillLog

end Coherence
