import MulticoreSim.Coherence.RingPace
import MulticoreSim.Coherence.SharedRounds

/-! # The network over its ring

`Network` as it runs: in each cycle every node ticks its engine and its end of the
ring, the CPUs' nodes first, and then every node tocks.
-/

namespace Coherence

variable (F : ProtocolFsm) (π : CpuPort)

structure RingNetwork where
  cpus : NodeId → CpuNode F π
  dir : DirectoryController
  ring : Ring := {}
  clock : Timestamp := 0
  stats : CoherenceStats := {}

variable {F π}

/-- `finalize_settings`. -/
def Settings.finalize (s : Settings) : Settings :=
  { s with
    headerFlits := 1 <<< (4 - s.linkWidthLog2)
    payloadFlits := 1 <<< (s.blockSizeLog2 - s.linkWidthLog2) }

theorem Settings.header_pos (s : Settings) : 1 ≤ s.finalize.headerFlits := by
  rw [finalize, Nat.one_shiftLeft]
  exact Nat.one_le_two_pow

namespace RingNetwork

/-- The CPUs' nodes and the directory's. -/
abbrev size (s : Settings) : Nat := s.numProcs + 1

/-- Before the first cycle, over the given port states. -/
def initial (F : ProtocolFsm) (π : CpuPort) (s : Settings) (cpu : NodeId → π.State) : RingNetwork F π :=
  { cpus := fun i => { cpu := cpu i }
    dir := DirectoryController.make s }

/-- What a port's own side does before the node ticks. -/
def call (s : Settings) (ν : RingNetwork F π) (x : NodeId × π.Event) : RingNetwork F π :=
  if x.1 < s.numProcs then
    match π.external s x.1 (ν.cpus x.1).cpu (ν.cpus x.1).cpuInNext x.2 with
    | none => ν
    | some p =>
        { ν with
          cpus := Function.update ν.cpus x.1 ((ν.cpus x.1).portStep p)
          stats := p.stats ν.stats }
  else ν

/-- `Node::tick` of a CPU's node: `cacheIn` is the cache's `ntwk_in_next`. -/
def tickCpu (s : Settings) (ν : RingNetwork F π) (k : NodeId) : Except String (RingNetwork F π) :=
  match (ν.cpus k).tick s k ν.stats with
  | .error what => .error what
  | .ok (n, st) =>
      let ring := ν.ring.tickNode (size s) k n.ntwkOutNext
      .ok
        { ν with
          cpus := Function.update ν.cpus k { n with ntwkInNext := (ring.nodes k).cacheIn.map ring.heap }
          ring
          stats := st }

/-- What a turn has handed to the engine of `k`. -/
def handed (before after : Ring) (k : NodeId) : List Message :=
  ((after.nodes k).handed.drop (before.nodes k).handed.length).map after.heap

/-- `Node::tick` of the directory's node. -/
def tickDir (s : Settings) (ν : RingNetwork F π) : Except String (RingNetwork F π) :=
  match System.tickDir F s ν.dir ν.clock ν.stats with
  | .error what => .error what
  | .ok (d, st) =>
      let ring := ν.ring.tickNode (size s) s.numProcs d.ntwkOutNext
      .ok
        { ν with
          dir := { d with requestNext := d.requestNext ++ handed ν.ring ring s.numProcs }
          ring
          stats := st }

/-- `Node::tick`. -/
def tickNode (s : Settings) (ν : RingNetwork F π) (k : NodeId) : Except String (RingNetwork F π) :=
  if k < s.numProcs then ν.tickCpu s k else ν.tickDir s

/-- `Node::tock`. -/
def tockNode (s : Settings) (ν : RingNetwork F π) (k : NodeId) : RingNetwork F π :=
  if k < s.numProcs then
    { ν with cpus := Function.update ν.cpus k (ν.cpus k).tock, ring := ν.ring.tockNode k }
  else { ν with dir := { ν.dir.tock with ntwkOutNext := [] }, ring := ν.ring.tockNode k }

/-- `Node::tick` of the nodes in order. -/
def tickAll (s : Settings) (ν : RingNetwork F π) : List NodeId → Except String (RingNetwork F π)
  | [] => .ok ν
  | k :: rest =>
      match ν.tickNode s k with
      | .error what => .error what
      | .ok ν' => tickAll s ν' rest

/-- `Network::tick`. -/
def tick (s : Settings) (ν : RingNetwork F π) : Except String (RingNetwork F π) :=
  ν.tickAll s (List.range (size s))

/-- `Network::tock`. -/
def tock (s : Settings) (ν : RingNetwork F π) : RingNetwork F π :=
  (List.range (size s)).foldl (fun ν k => ν.tockNode s k) ν

/-- One turn of the loop of `run_coherence_mode` and `run_full_mode`. -/
def cycle (s : Settings) (ν : RingNetwork F π) (calls : List (NodeId × π.Event)) :
    Except String (RingNetwork F π) :=
  match (calls.foldl (fun ν x => ν.call s x) ν).tick s with
  | .error what => .error what
  | .ok ν' =>
      let ν' := ν'.tock s
      .ok { ν' with clock := ν'.clock + 1 }

/-- `Network::is_done` over trace-driven CPUs. -/
def isDone (s : Settings) (ν : RingNetwork F ficiPort) : Bool :=
  (List.range s.numProcs).all fun i => FiciCpu.isDone (ν.cpus i).cpu

/-- The loop of `run_coherence_mode`, `left` cycles before the cap. Whether it completed. -/
def run (s : Settings) : Nat → RingNetwork F ficiPort → Except String (RingNetwork F ficiPort × Bool)
  | 0, ν => .ok (ν, false)
  | left + 1, ν =>
      if ν.isDone s then .ok (ν, true)
      else
        match ν.cycle s [] with
        | .error what => .error what
        | .ok ν' => run s left ν'

end RingNetwork

/-- `run_coherence_mode` from its first cycle on. -/
def runCoherenceMode (F : ProtocolFsm) (s : Settings) (traces : NodeId → List Instruction) (maxCycles : Nat) :
    Except String (RingNetwork F ficiPort × Bool) :=
  (RingNetwork.initial F ficiPort s fun i => FiciCpu.load (traces i)).run s maxCycles

/-! ## What a turn does to the ring's ends -/

namespace Ring

variable {n k : Nat} {σ σ' : Ring} {out : List Message} {id : MsgId}

/-- The ring's ends are as they were. -/
structure Internal (σ σ' : Ring) : Prop where
  heap : σ'.heap = σ.heap
  fresh : σ'.fresh = σ.fresh
  outNext : ∀ j, (σ'.nodes j).outNext = (σ.nodes j).outNext
  handed : ∀ j, (σ'.nodes j).handed = (σ.nodes j).handed
  cacheIn : ∀ j, (σ'.nodes j).cacheIn = (σ.nodes j).cacheIn

theorem Internal.refl (σ : Ring) : Internal σ σ := ⟨rfl, rfl, fun _ => rfl, fun _ => rfl, fun _ => rfl⟩

theorem Internal.trans {σ'' : Ring} (first : Internal σ σ') (second : Internal σ' σ'') : Internal σ σ'' where
  heap := second.heap.trans first.heap
  fresh := second.fresh.trans first.fresh
  outNext j := (second.outNext j).trans (first.outNext j)
  handed j := (second.handed j).trans (first.handed j)
  cacheIn j := (second.cacheIn j).trans (first.cacheIn j)

theorem drain_internal (σ : Ring) (n k : Nat) (queue : List MsgId) : Internal σ (σ.drain n k queue) := by
  induction queue generalizing σ with
  | nil => exact .refl σ
  | cons id rest ih =>
      rw [drain]
      split
      · refine .trans ?_ (ih _)
        refine ⟨rfl, rfl, fun j => ?_, fun j => ?_, fun j => ?_⟩
        all_goals
          simp only [launch, update, Function.update_apply]
          split <;> split <;> simp [*]
      · exact .refl σ

theorem land_internal (σ : Ring) (k : Nat) (p : Port) : Internal σ (σ.land k p) := by
  unfold land
  split
  · exact .refl σ
  · split
    · refine ⟨rfl, rfl, fun j => ?_, fun j => ?_, fun j => ?_⟩
      all_goals
        rw [update_nodes]
        split
        · split <;> rfl
        · rfl
    · exact .refl σ

theorem age_internal (σ : Ring) (k : Nat) (p : Port) : Internal σ (σ.age k p) := by
  unfold age
  split
  · exact .refl σ
  · simp only
    split
    · refine ⟨rfl, rfl, fun j => ?_, fun j => ?_, fun j => ?_⟩
      all_goals
        rw [update_nodes]
        split <;> rfl
    · exact ⟨rfl, rfl, fun _ => rfl, fun _ => rfl, fun _ => rfl⟩

/-- `k` sends `out` and is handed `taken`. -/
structure Exchange (n k : Nat) (out : List Message) (taken : List MsgId) (σ σ' : Ring) : Prop where
  fresh : σ'.fresh = σ.fresh + out.length
  heap : ∀ id < σ.fresh, σ'.heap id = σ.heap id
  sends : (List.range' σ.fresh out.length).map σ'.heap = out
  outNext : ∀ j, (σ'.nodes j).outNext =
    (σ.nodes j).outNext ++ if j = k then List.range' σ.fresh out.length else []
  handed : ∀ j, (σ'.nodes j).handed = (σ.nodes j).handed ++ if j = k then taken else []
  cacheIn : ∀ j, j ≠ k → (σ'.nodes j).cacheIn = (σ.nodes j).cacheIn
  /-- A cache takes one message in a cycle. -/
  latch : k + 1 ≠ n → (σ.nodes k).cacheIn = none → taken = (σ'.nodes k).cacheIn.toList

theorem inject_exchange (σ : Ring) (n k : Nat) (out : List Message) : Exchange n k out [] σ (σ.inject k out) ∧
    ((σ.inject k out).nodes k).cacheIn = (σ.nodes k).cacheIn := by
  induction out generalizing σ with
  | nil =>
      refine ⟨⟨rfl, fun _ _ => rfl, rfl, ?_, ?_, fun _ _ => rfl, ?_⟩, rfl⟩
      · intro j
        simp [inject]
      · intro j
        simp [inject]
      · intro _ free
        simp [inject, free]
  | cons m rest ih =>
      obtain ⟨later, same⟩ := ih { σ.update k fun x => { x with outNext := x.outNext ++ [σ.fresh] } with
        heap := Function.update σ.heap σ.fresh m
        fresh := σ.fresh + 1 }
      have step := injected σ k m
      have node (j : Nat) : (({ σ.update k fun x => { x with outNext := x.outNext ++ [σ.fresh] } with
          heap := Function.update σ.heap σ.fresh m
          fresh := σ.fresh + 1 } : Ring).nodes j).cacheIn = (σ.nodes j).cacheIn := by
        simp only [update, Function.update_apply]
        split <;> simp [*]
      rw [inject]
      refine ⟨⟨?_, fun id old => ?_, ?_, fun j => ?_, fun j => ?_, fun j ne => ?_, fun other free => ?_⟩,
        same.trans (node k)⟩
      · rw [later.fresh, List.length_cons]
        exact Nat.add_right_comm σ.fresh 1 rest.length
      · rw [later.heap id (Nat.lt_succ_of_lt old)]
        exact Function.update_of_ne (Nat.ne_of_lt old) _ _
      · rw [List.length_cons, List.range'_succ, List.map_cons, later.heap _ (Nat.lt_succ_self _)]
        refine congrArg₂ _ (Function.update_self ..) later.sends
      · rw [later.outNext, step.outNext, List.append_assoc, List.length_cons, List.range'_succ]
        split <;> rfl
      · rw [later.handed, step.handed]
      · rw [later.cacheIn j ne, node]
      · exact later.latch other (by rw [node]; exact free)

theorem Exchange.internal {σ'' : Ring} {taken : List MsgId} (first : Exchange n k out taken σ σ') (second : Internal σ' σ'') :
    Exchange n k out taken σ σ'' where
  fresh := second.fresh.trans first.fresh
  heap id old := by rw [second.heap, first.heap id old]
  sends := by rw [second.heap, first.sends]
  outNext j := (second.outNext j).trans (first.outNext j)
  handed j := (second.handed j).trans (first.handed j)
  cacheIn j ne := (second.cacheIn j).trans (first.cacheIn j ne)
  latch other free := by rw [second.cacheIn, first.latch other free]

/-- What one `handOver` does. -/
theorem handOver_ends (n : Nat) (σ : Ring) (k : Nat) : Internal σ (σ.handOver n k) ∨
    ∃ id, (k + 1 = n ∨ (σ.nodes k).cacheIn = none ∧ ((σ.handOver n k).nodes k).cacheIn = some id) ∧
      (σ.handOver n k).heap = σ.heap ∧ (σ.handOver n k).fresh = σ.fresh ∧
      (∀ j, ((σ.handOver n k).nodes j).outNext = (σ.nodes j).outNext) ∧
      (∀ j, ((σ.handOver n k).nodes j).handed = (σ.nodes j).handed ++ if j = k then [id] else []) ∧
      ∀ j, j ≠ k → ((σ.handOver n k).nodes j).cacheIn = (σ.nodes j).cacheIn := by
  unfold handOver
  split
  · exact .inl (.refl σ)
  · next id rest inbox =>
      split
      · next last =>
          refine .inr ⟨id, .inl last, rfl, rfl, fun j => ?_, fun j => ?_, fun j ne => ?_⟩
          · rw [update_nodes]
            split <;> rfl
          · rw [update_nodes]
            by_cases eq : j = k <;> simp [*]
          · rw [update_nodes, if_neg ne]
      · split
        · next free =>
            refine .inr ⟨id, .inr ⟨free, ?_⟩, rfl, rfl, fun j => ?_, fun j => ?_, fun j ne => ?_⟩
            · simp [update_nodes]
            · rw [update_nodes]
              split <;> rfl
            · rw [update_nodes]
              by_cases eq : j = k <;> simp [*]
            · rw [update_nodes, if_neg ne]
        · exact .inl (.refl σ)

/-- Somebody is handed a message after what came before. -/
theorem Exchange.handOver {taken : List MsgId} (before : Exchange n k out taken σ σ') :
    ∃ taken', Exchange n k out taken' σ (σ'.handOver n k) := by
  rcases handOver_ends n σ' k with same | ⟨id, latch, heap, fresh, outNext, handed, cacheIn⟩
  · exact ⟨taken, before.internal same⟩
  · refine ⟨taken ++ [id], ⟨fresh.trans before.fresh, fun x old => by rw [heap, before.heap x old],
      by rw [heap, before.sends], fun j => (outNext j).trans (before.outNext j), fun j => ?_,
      fun j ne => (cacheIn j ne).trans (before.cacheIn j ne), fun other none => ?_⟩⟩
    · rw [handed, before.handed]
      split <;> simp
    · obtain ⟨empty, full⟩ := latch.resolve_left other
      rw [before.latch other none, empty, full]
      rfl

/-- `Node::tick`. -/
theorem tickNode_exchange (σ : Ring) (n k : Nat) (out : List Message) :
    ∃ taken, Exchange n k out taken σ (σ.tickNode n k out) := by
  have sent := (inject_exchange σ n k out).1
  have drained := sent.internal (drain_internal _ n k ((σ.inject k out).nodes k).outQueue)
  have left := drained.internal (land_internal _ k .left)
  have right := left.internal (land_internal _ k .right)
  obtain ⟨taken, once⟩ := right.handOver
  exact once.handOver

/-- `Node::tock`. -/
theorem tockNode_ends (sound : Sound n σ) (two : 2 ≤ n) (here : k < n) :
    (σ.tockNode k).heap = σ.heap ∧ (σ.tockNode k).fresh = σ.fresh ∧
      (∀ j, ((σ.tockNode k).nodes j).outNext = if j = k then [] else (σ.nodes j).outNext) ∧
      (∀ j, ((σ.tockNode k).nodes j).handed = (σ.nodes j).handed) ∧
      ∀ j, ((σ.tockNode k).nodes j).cacheIn = if j = k then none else (σ.nodes j).cacheIn := by
  have step := spliced σ k
  have aged := ((sound.splice two here step).age here .left).age here .right
  have ends := (age_internal (σ.update k fun x =>
    { x with cacheIn := none, outQueue := x.outQueue ++ x.outNext, outNext := [] }) k .left).trans
    (age_internal _ k .right)
  rw [tockNode, aged.inNext_unused here]
  refine ⟨ends.heap.trans step.heap, ends.fresh.trans step.fresh, fun j => (ends.outNext j).trans (step.outNext j),
    fun j => (ends.handed j).trans (step.handed j), fun j => (ends.cacheIn j).trans ?_⟩
  rw [update_nodes]
  split <;> rfl

end Ring

end Coherence
