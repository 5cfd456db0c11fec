import MulticoreSim.Coherence.PrivateBlocks
import MulticoreSim.Coherence.Stations
import MulticoreSim.Coherence.Uplink
import Mathlib.Algebra.BigOperators.Group.Finset.Sigma

/-! # Traces that share nothing

Where no two CPUs touch the same block, every CPU goes its own way: its node, its
messages and the directory's entries for its blocks follow from how far it has
come in its trace. So do its shares of the counters.
-/

namespace Coherence

open DirectoryProtocol

/-! ## How far a CPU has come -/

/-- Where a request to the directory is. -/
inductive Spot where
  /-- Not taken up yet. -/
  | sent
  /-- Memory is preparing the answer. -/
  | latched
  /-- The answer is on its way. -/
  | granted
  deriving DecidableEq

/-- Where a CPU's request is. -/
inductive Leg where
  | idle
  | issued (x : Instruction)
  | arrived (x : Instruction)
  | asked (x : Instruction) (need : Need) (spot : Spot)
  | answered (x : Instruction)
  | returned (x : Instruction)
  deriving DecidableEq

def Leg.pending : Leg → List Instruction
  | .issued x | .arrived x | .asked x _ _ => [x]
  | .idle | .answered _ | .returned _ => []

/-- `outstanding_`. -/
def Leg.busy : Leg → Bool
  | .idle => false
  | _ => true

/-- A CPU on its way through its trace. -/
structure Way where
  /-- The accesses that have been answered. -/
  past : List Instruction := []
  leg : Leg := .idle
  rest : List Instruction

namespace Way

variable (w : Way) (P : Manner) (s : Settings) (i : NodeId)

def issued : List Instruction := w.past ++ w.leg.pending

def trace : List Instruction := w.issued ++ w.rest

/-! What the parts of the system look like. -/

def cpuInNext : Option Message :=
  match w.leg with
  | .issued x => some (Message.make i i (x.block s) x.kind s)
  | _ => none

def cpuIn : Option Message :=
  match w.leg with
  | .arrived x => some (Message.make i i (x.block s) x.kind s)
  | _ => none

def cpu : FiciCpu where
  instrs := w.trace
  curip := w.issued.length
  outstanding := w.leg.busy
  traceDone := w.rest.isEmpty
  cacheIn :=
    match w.leg with
    | .returned x => some (Message.make i i (x.block s) .data s)
    | _ => none
  cacheInNext :=
    match w.leg with
    | .answered x => some (Message.make i i (x.block s) .data s)
    | _ => none

def agent {F : ProtocolFsm} (L : Own F) (b : BlockId) : F.AgentState :=
  match w.leg with
  | .asked x need _ =>
      if b = x.block s then L.wait need else L.rest (L.manner.hold s w.past b)
  | _ => L.rest (L.manner.hold s w.past b)

/-- What the directory takes the CPU to hold. -/
def line (b : BlockId) : Hold :=
  match w.leg with
  | .asked x need .latched | .asked x need .granted =>
      if b = x.block s then P.gains need else P.hold s w.past b
  | _ => P.hold s w.past b

/-- The messages on the way to the directory. -/
def up : List Message :=
  match w.leg with
  | .asked x need .sent => [Message.make i s.numProcs (x.block s) (P.request need) s]
  | _ => []

/-- The messages on the way to the node. -/
def down : List Message :=
  match w.leg with
  | .asked x need .granted => [Message.make s.numProcs i (x.block s) (P.reply need) s]
  | _ => []

/-- The request is one that the access needs. -/
def Asks : Prop :=
  ∀ x need spot, w.leg = .asked x need spot →
    (P.hold s w.past (x.block s)).lacks x.kind = some need ∧ (spot = .latched → need ≠ .raise)

/-! The counters' shares. -/

/-- The accesses an agent has dealt with. -/
def dealt : List Instruction :=
  match w.leg with
  | .asked x _ _ => w.past ++ [x]
  | _ => w.past

/-- The accesses the directory has dealt with. -/
def takenUp : List Instruction :=
  match w.leg with
  | .asked x _ .latched | .asked x _ .granted => w.past ++ [x]
  | _ => w.past

/-- The accesses memory has dealt with. -/
def served : List Instruction :=
  match w.leg with
  | .asked x _ .granted => w.past ++ [x]
  | _ => w.past

def misses : Nat := (touched s w.dealt).card

def reads : Nat := (touched s w.served).card

def raises : Nat := if P.clean then (raised s w.takenUp).card else 0

/-! Steps. -/

/-- `receive`. -/
def receive : Way :=
  match w.leg with
  | .returned _ => { w with leg := .idle }
  | _ => w

/-- The next access is issued. -/
def issue : Way :=
  match w.leg, w.rest with
  | .idle, x :: rest => { w with leg := .issued x, rest }
  | _, _ => w

/-- The agent answers, or asks the directory. -/
def ask : Way :=
  match w.leg with
  | .arrived x =>
      match (P.hold s w.past (x.block s)).lacks x.kind with
      | some need => { w with leg := .asked x need .sent }
      | none => { w with past := w.past ++ [x], leg := .answered x }
  | _ => w

/-- The message the agent sends on the CPU's request. -/
def sends : List Message :=
  match w.leg with
  | .arrived _ => (w.ask P s).up P s i
  | _ => []

/-- The directory takes the request up. -/
def take : Way :=
  match w.leg with
  | .asked x need .sent => { w with leg := .asked x need (if need = .raise then .granted else .latched) }
  | _ => w

/-- Memory answers. -/
def respond : Way :=
  match w.leg with
  | .asked x need .latched => { w with leg := .asked x need .granted }
  | _ => w

/-- The agent takes its grant. -/
def accept : Way :=
  match w.leg with
  | .asked x _ .granted => { w with past := w.past ++ [x], leg := .answered x }
  | _ => w

/-- A whole tick of the node, with the message it takes in. -/
def tick (mail : Option Message) : Way :=
  let w := w.receive.issue.ask P s
  if mail.isSome then w.accept else w

def tock : Way :=
  match w.leg with
  | .issued x => { w with leg := .arrived x }
  | .answered x => { w with leg := .returned x }
  | _ => w

end Way

/-- A node's CPU, mailboxes and agents are where its way has led them. -/
structure NodeAt {F : ProtocolFsm} (L : Own F) (s : Settings) (i : NodeId) (n : CpuNode F ficiPort)
    (w : Way) : Prop where
  cpu : n.cpu = w.cpu s i
  cpuInNext : n.cpuInNext = w.cpuInNext s i
  cpuIn : n.cpuIn = w.cpuIn s i
  agents : ∀ b, n.agents b = w.agent s L b

section

variable {F : ProtocolFsm} {L : Own F} {s : Settings} {i : NodeId} {n : CpuNode F ficiPort} {w : Way}

/-- The CPU takes its answer in and issues the next access. -/
theorem NodeAt.portStep (here : NodeAt L s i n w) :
    NodeAt L s i (n.portStep (n.called s i)) w.receive.issue := by
  obtain ⟨past, leg, rest⟩ := w
  have cpu : n.cpu = _ := here.cpu
  have next := here.cpuInNext
  have now := here.cpuIn
  have agents := here.agents
  cases leg with
  | idle | returned x =>
      cases rest with
      | nil =>
          constructor <;>
            simp_all [CpuNode.called, CpuNode.portStep, ficiPort, FiciCpu.tick, FiciCpu.receive, Way.cpu,
              Way.receive, Way.issue, Way.cpuInNext, Way.cpuIn, Way.agent, Way.trace, Way.issued,
              Leg.pending, Leg.busy]
      | cons y rest =>
          have last : (past.length + 1 == past.length + (rest.length + 1)) = rest.isEmpty := by
            cases rest <;> simp
          constructor <;>
            simp_all [CpuNode.called, CpuNode.portStep, ficiPort, FiciCpu.tick, FiciCpu.receive, Way.cpu,
              Way.receive, Way.issue, Way.cpuInNext, Way.cpuIn, Way.agent, Way.trace, Way.issued,
              Leg.pending, Leg.busy]
  | issued x | arrived x | asked x need spot | answered x =>
      constructor <;>
        simp_all [CpuNode.called, CpuNode.portStep, ficiPort, FiciCpu.tick, FiciCpu.receive, Way.cpu,
          Way.receive, Way.issue, Way.cpuInNext, Way.cpuIn, Way.agent, Way.trace, Way.issued, Leg.pending,
          Leg.busy]

/-- An issued access is counted as such only. -/
theorem called_stats (n : CpuNode F ficiPort) (s : Settings) (i : NodeId) (st : CoherenceStats) :
    ∃ k, (n.called s i).stats st = { st with cacheAccesses := k } := by
  simp only [CpuNode.called, ficiPort, FiciCpu.tick]
  split
  · exact ⟨_, rfl⟩
  · split <;> exact ⟨_, rfl⟩

theorem NodeAt.tock (here : NodeAt L s i n w) : NodeAt L s i n.tock w.tock := by
  obtain ⟨past, leg, rest⟩ := w
  have cpu : n.cpu = _ := here.cpu
  have next := here.cpuInNext
  have now := here.cpuIn
  have agents := here.agents
  cases leg <;> constructor <;>
    simp_all [CpuNode.tock, ficiPort, FiciCpu.tock, Way.cpu, Way.tock, Way.cpuInNext, Way.cpuIn,
      Way.agent, Way.trace, Way.issued, Leg.pending, Leg.busy]

/-- Raising a hold needs a protocol with copies to read. -/
theorem reads_of_raise {P : Manner} {l : List Instruction} {b : BlockId} {k : MessageKind}
    (lacks : (P.hold s l b).lacks k = some .raise) : P.reads = true := by
  by_contra unread
  have held := Hold.short_of_lacks lacks
  exact Manner.after_unread (by simpa using unread) held.symm

theorem reads_of_read {P : Manner} {l : List Instruction} {b : BlockId} (held : P.hold s l b = .read) :
    P.reads = true := by
  by_contra unread
  exact Manner.after_unread (by simpa using unread) held

/-- A hold that lacks nothing for an access is one already. -/
theorem touched_of_hit {P : Manner} {l : List Instruction} {x : Instruction}
    (hit : (P.hold s l (x.block s)).lacks x.kind = none) :
    (touched s (l ++ [x])).card = (touched s l).card := by
  rw [P.card_touched_snoc, if_neg, Nat.add_zero]
  intro nothing
  rw [nothing] at hit
  rcases x.kind_or with kind | kind <;> rw [kind] at hit <;> cases hit

/-- What the agent makes of an access that has arrived. -/
structure Asked (L : Own F) (s : Settings) (i : NodeId) (n n' : CpuNode F ficiPort) (w : Way)
    (st st' : CoherenceStats) : Prop where
  node : NodeAt L s i n' (w.ask L.manner s)
  out : n'.ntwkOutNext = n.ntwkOutNext ++ w.sends L.manner s i
  inbox : n'.inbox = n.inbox
  ntwkIn : n'.ntwkIn = n.ntwkIn
  stats : ∃ k, k + w.misses s = st.cacheMisses + (w.ask L.manner s).misses s ∧
    st' = { st with cacheMisses := k }

theorem tickProc_ok {m : Message} {a : AgentStep F.AgentState} (arrived : n.cpuIn = some m)
    (answer : F.processProcRequest (n.agents m.block) m.kind = .ok a) (st : CoherenceStats) :
    n.tickProc s i st =
      .ok ({ n.apply s i m.block a with cpuIn := none }, CpuNode.countMiss a st) := by
  simp only [CpuNode.tickProc, arrived, answer]

/-- The agent of an arrived access answers or asks. -/
theorem NodeAt.tickProc (here : NodeAt L s i n w) (st : CoherenceStats) :
    ∃ n' st', n.tickProc s i st = .ok (n', st') ∧ Asked L s i n n' w st st' := by
  obtain ⟨past, leg, rest⟩ := w
  have now := here.cpuIn
  cases leg with
  | idle | issued x | asked x need spot | answered x | returned x =>
      refine ⟨n, st, ?_, here, ?_, rfl, rfl, st.cacheMisses, rfl, rfl⟩
      · simp only [CpuNode.tickProc, now, Way.cpuIn]
      · simp [Way.sends]
  | arrived x =>
      have cpu : n.cpu = _ := here.cpu
      have next := here.cpuInNext
      have agents := here.agents
      have agent : n.agents (x.block s) = L.rest (L.manner.hold s past (x.block s)) := agents (x.block s)
      cases lacks : (L.manner.hold s past (x.block s)).lacks x.kind with
      | none =>
          have hit : Way.ask ⟨past, .arrived x, rest⟩ L.manner s = ⟨past ++ [x], .answered x, rest⟩ := by
            simp only [Way.ask, lacks]
          have answer := L.hits _ _ lacks reads_of_read x.kind_or
          refine ⟨_, _, tickProc_ok now (agent ▸ answer) st, ?_, ?_, rfl, rfl, st.cacheMisses, ?_, rfl⟩
          · have hold (b : BlockId) :
                L.manner.hold s (past ++ [x]) b = L.manner.hold s past b := by
              rw [Manner.hold_snoc]
              split
              · next eq => rw [eq, L.manner.next_of_hit lacks]
              · rfl
            rw [hit]
            constructor
            case agents =>
              intro b
              simp only [CpuNode.apply, Way.agent, hold]
              by_cases eq : b = x.block s
              · rw [eq, Message.make_block, Function.update_self, agent]
              · rw [Message.make_block, Function.update_of_ne eq]
                exact agents b
            all_goals simp_all [CpuNode.apply, ficiPort, Way.cpu, Way.cpuInNext, Way.cpuIn, Way.trace,
              Way.issued, Leg.pending, Leg.busy]
          · simp [Way.sends, hit, Way.up, CpuNode.apply]
          · rw [hit]
            simp only [Way.misses, Way.dealt, touched_of_hit lacks]
      | some need =>
          have ask : Way.ask ⟨past, .arrived x, rest⟩ L.manner s = ⟨past, .asked x need .sent, rest⟩ := by
            simp only [Way.ask, lacks]
          have answer := L.asks _ _ _ lacks (fun raise => reads_of_raise (raise ▸ lacks)) x.kind_or
          refine ⟨_, _, tickProc_ok now (agent ▸ answer) st, ?_, ?_, rfl, rfl, ?_⟩
          · rw [ask]
            constructor
            case agents =>
              intro b
              simp only [CpuNode.apply, Way.agent]
              by_cases eq : b = x.block s
              · rw [if_pos eq, eq, Message.make_block, Function.update_self]
              · rw [if_neg eq, Message.make_block, Function.update_of_ne eq]
                exact agents b
            all_goals simp_all [CpuNode.apply, ficiPort, Way.cpu, Way.cpuInNext, Way.cpuIn, Way.trace,
              Way.issued, Leg.pending, Leg.busy]
          · simp [Way.sends, ask, Way.up, CpuNode.apply]
          · rw [ask]
            have short := Hold.short_of_lacks lacks
            simp only [Way.misses, Way.dealt, L.manner.card_touched_snoc, ← short, CpuNode.countMiss]
            cases need with
            | load | store =>
                refine ⟨st.cacheMisses + 1, ?_, rfl⟩
                simp only [Need.short, if_true]
                omega
            | raise => exact ⟨st.cacheMisses, rfl, rfl⟩

theorem tickNtwk_ok {m : Message} {a : AgentStep F.AgentState} (arrived : n.ntwkIn = some m)
    (answer : F.processNtwkRequest (n.agents m.block) m.kind = .ok a) (st : CoherenceStats) :
    n.tickNtwk s i st =
      .ok ({ n.apply s i m.block a with ntwkIn := none }, CpuNode.countMiss a st) := by
  simp only [CpuNode.tickNtwk, arrived, answer]
  rfl

/-- The access that is asked for has been made. -/
theorem hold_of_asked {P : Manner} (asks : w.Asks P s) {x : Instruction} {need : Need} {spot : Spot}
    (leg : w.leg = .asked x need spot) (b : BlockId) :
    P.hold s (w.past ++ [x]) b = if b = x.block s then P.gains need else P.hold s w.past b := by
  rw [Manner.hold_snoc]
  split
  · next eq => rw [eq, P.next_of_need (asks x need spot leg).1]
  · rfl

/-- The agent that waits takes its grant. -/
theorem NodeAt.tickNtwk (here : NodeAt L s i n w) (asks : w.Asks L.manner s) {x : Instruction}
    {need : Need} (leg : w.leg = .asked x need .granted) {m : Message} (arrived : n.ntwkIn = some m)
    (grant : m.block = x.block s ∧ m.kind = L.manner.reply need) (st : CoherenceStats) :
    ∃ n', n.tickNtwk s i st = .ok (n', st) ∧ NodeAt L s i n' w.accept ∧
      n'.ntwkOutNext = n.ntwkOutNext ∧ n'.ntwkIn = none ∧ n'.ntwkInNext = n.ntwkInNext := by
  have hold := hold_of_asked asks leg
  have lacks := (asks x need _ leg).1
  have answer := L.accepts need fun raise => reads_of_raise (raise ▸ lacks)
  obtain ⟨past, leg', rest⟩ := w
  cases leg
  have cpu : n.cpu = _ := here.cpu
  have next := here.cpuInNext
  have now := here.cpuIn
  have agents := here.agents
  have agent : n.agents m.block = L.wait need := by rw [grant.1, agents]; simp [Way.agent]
  rw [← agent, ← grant.2] at answer
  refine ⟨_, tickNtwk_ok arrived answer st, ?_, ?_, rfl, rfl⟩
  · constructor
    case agents =>
      intro b
      simp only [CpuNode.apply, Way.agent, Way.accept, acceptGrant]
      rw [hold, grant.1, Function.update_apply]
      by_cases eq : b = x.block s
      · rw [if_pos eq, if_pos eq]
      · rw [if_neg eq, if_neg eq, agents]
        simp [Way.agent, eq]
    all_goals simp_all [CpuNode.apply, ficiPort, acceptGrant, Way.accept, Way.cpu, Way.cpuInNext,
      Way.cpuIn, Way.trace, Way.issued, Leg.pending, Leg.busy]
  · simp [CpuNode.apply, acceptGrant]

end

/-! ## The whole network -/

/-- No two CPUs touch the same block. -/
def PrivateTraces (s : Settings) (traces : NodeId → List Instruction) : Prop :=
  ∀ i < s.numProcs, ∀ j < s.numProcs, i ≠ j →
    ∀ x ∈ traces i, ∀ y ∈ traces j, x.block s ≠ y.block s

/-- Every CPU is on its way, and the counters are the sums of what the ways have come to. -/
structure Tracks {F : ProtocolFsm} (L : Own F) (s : Settings) (traces : NodeId → List Instruction)
    (σ : System F ficiPort) (w : NodeId → Way) : Prop where
  trace : ∀ i < s.numProcs, (w i).trace = traces i
  asks : ∀ i < s.numProcs, (w i).Asks L.manner s
  node : ∀ i < s.numProcs, NodeAt L s i (σ.cpus i) (w i)
  up : ∀ i < s.numProcs, (σ.carried s i).Perm ((w i).up L.manner s i)
  down : ∀ i < s.numProcs, σ.arriving s i = (w i).down L.manner s i
  entry : ∀ i < s.numProcs, ∀ x ∈ traces i,
    OwnEntry L.entry s.numProcs i (x.block s) (σ.dir.directory (x.block s))
      ((w i).line L.manner s (x.block s))
  latch : σ.dir.requestInProgress = true → ∃ i < s.numProcs, ∃ x need,
    (w i).leg = .asked x need .latched ∧ σ.dir.targetNode = i ∧ σ.dir.tagToSend = x.block s ∧
      σ.dir.sendE = (L.manner.reply need == .dataE) ∧ σ.dir.pendingLlsMiss = true
  latched : ∀ i < s.numProcs, ∀ x need, (w i).leg = .asked x need .latched →
    σ.dir.requestInProgress = true ∧ σ.dir.targetNode = i
  lls : ∀ k, ∀ b ∈ σ.dir.lls.sets k, (σ.dir.directory b).state ≠ .I
  misses : σ.stats.cacheMisses = ∑ i ∈ Finset.range s.numProcs, (w i).misses s
  reads : σ.stats.memoryReads = ∑ i ∈ Finset.range s.numProcs, (w i).reads s
  raises : σ.stats.silentUpgrades = ∑ i ∈ Finset.range s.numProcs, (w i).raises L.manner s
  transfers : σ.stats.c2cTransfers = 0
  writes : σ.stats.memoryWrites = 0

section

variable {F : ProtocolFsm} {L : Own F} {s : Settings} {traces : NodeId → List Instruction}
  {σ : System F ficiPort} {w : NodeId → Way} {i : NodeId} {n' : CpuNode F ficiPort} {w' : Way}
  {st : CoherenceStats}

/-- What the way of a node leaves to the directory stays as it is. -/
structure Way.Keeps (w w' : Way) (P : Manner) (s : Settings) : Prop where
  trace : w'.trace = w.trace
  line : ∀ b, w'.line P s b = w.line P s b
  latched : ∀ x need, w'.leg = .asked x need .latched ↔ w.leg = .asked x need .latched
  reads : w'.reads s = w.reads s
  raises : w'.raises P s = w.raises P s

theorem Way.Asks.called {P : Manner} (asks : (w i).Asks P s) : (w i).receive.issue.Asks P s := by
  generalize w i = v at asks ⊢
  obtain ⟨past, leg, rest⟩ := v
  cases leg with
  | idle | returned x => cases rest <;> rintro y need spot ⟨⟩
  | issued x | arrived x | asked x need spot | answered x => exact asks

theorem Way.Asks.tock {P : Manner} (asks : (w i).Asks P s) : (w i).tock.Asks P s := by
  generalize w i = v at asks ⊢
  obtain ⟨past, leg, rest⟩ := v
  cases leg with
  | issued x | answered x => rintro y need spot ⟨⟩
  | idle | arrived x | asked x need spot | returned x => exact asks

theorem Way.Asks.ask {P : Manner} (asks : (w i).Asks P s) : ((w i).ask P s).Asks P s := by
  generalize w i = v at asks ⊢
  obtain ⟨past, leg, rest⟩ := v
  cases leg with
  | arrived x =>
      unfold Way.ask
      simp only
      split
      · next need lacks =>
          rintro y need' spot ⟨⟩
          exact ⟨lacks, nofun⟩
      · rintro y need spot ⟨⟩
  | idle | issued x | asked x need spot | answered x | returned x => exact asks

theorem Way.Asks.accept {P : Manner} (asks : (w i).Asks P s) : (w i).accept.Asks P s := by
  generalize w i = v at asks ⊢
  obtain ⟨past, leg, rest⟩ := v
  cases leg with
  | asked x need spot =>
      cases spot with
      | granted => rintro y need spot ⟨⟩
      | sent | latched => exact asks
  | idle | issued x | arrived x | answered x | returned x => exact asks

theorem Way.keeps_called (w : Way) (P : Manner) (s : Settings) : w.Keeps w.receive.issue P s := by
  obtain ⟨past, leg, rest⟩ := w
  cases leg with
  | idle | returned x =>
      cases rest <;> constructor <;>
        simp [Way.receive, Way.issue, Way.trace, Way.issued, Leg.pending, Way.line, Way.reads, Way.served,
          Way.raises, Way.takenUp]
  | issued x | arrived x | asked x need spot | answered x => exact ⟨rfl, fun _ => rfl, fun _ _ => Iff.rfl, rfl, rfl⟩

theorem Way.keeps_tock (w : Way) (P : Manner) (s : Settings) : w.Keeps w.tock P s := by
  obtain ⟨past, leg, rest⟩ := w
  cases leg <;> constructor <;>
    simp [Way.tock, Way.trace, Way.issued, Leg.pending, Way.line, Way.reads, Way.served,
      Way.raises, Way.takenUp]

/-- An access that raises nothing leaves what is raised alone. -/
theorem raised_of_hit {P : Manner} {l : List Instruction} {x : Instruction} (clean : P.reads = true)
    (hit : (P.hold s l (x.block s)).lacks x.kind = none) :
    (raised s (l ++ [x])).card = (raised s l).card := by
  rw [P.card_raised_snoc clean, if_neg, Nat.add_zero]
  rintro ⟨held, store⟩
  rw [held, store] at hit
  cases hit

theorem Way.keeps_ask (w : Way) {P : Manner} (clean : P.clean = true → P.reads = true) (s : Settings) :
    w.Keeps (w.ask P s) P s := by
  obtain ⟨past, leg, rest⟩ := w
  cases leg with
  | arrived x =>
      cases lacks : (P.hold s past (x.block s)).lacks x.kind with
      | some need =>
          have ask : Way.ask ⟨past, .arrived x, rest⟩ P s = ⟨past, .asked x need .sent, rest⟩ := by
            simp only [Way.ask, lacks]
          rw [ask]
          exact ⟨rfl, fun _ => rfl, fun _ _ => by simp, rfl, rfl⟩
      | none =>
          have hit : Way.ask ⟨past, .arrived x, rest⟩ P s = ⟨past ++ [x], .answered x, rest⟩ := by
            simp only [Way.ask, lacks]
          rw [hit]
          refine ⟨by simp [Way.trace, Way.issued, Leg.pending], fun b => ?_, fun _ _ => by simp,
            touched_of_hit lacks, ?_⟩
          · simp only [Way.line, Manner.hold_snoc]
            split
            · next eq => rw [eq, P.next_of_hit lacks]
            · rfl
          · simp only [Way.raises, Way.takenUp]
            split
            · next raises => exact raised_of_hit (clean raises) lacks
            · rfl
  | idle | issued x | asked x need spot | answered x | returned x =>
      exact ⟨rfl, fun _ => rfl, fun _ _ => Iff.rfl, rfl, rfl⟩

theorem Way.keeps_accept {w : Way} {P : Manner} (asks : w.Asks P s) : w.Keeps w.accept P s := by
  obtain ⟨past, leg, rest⟩ := w
  cases leg with
  | asked x need spot =>
      cases spot with
      | granted =>
          refine ⟨by simp [Way.accept, Way.trace, Way.issued, Leg.pending], fun b => ?_,
            fun _ _ => by simp [Way.accept], rfl, rfl⟩
          simp only [Way.accept, Way.line]
          exact hold_of_asked asks rfl b
      | sent | latched => exact ⟨rfl, fun _ => rfl, fun _ _ => Iff.rfl, rfl, rfl⟩
  | idle | issued x | arrived x | answered x | returned x =>
      exact ⟨rfl, fun _ => rfl, fun _ _ => Iff.rfl, rfl, rfl⟩

/-- One node acts. -/
theorem Tracks.cpu (tracks : Tracks L s traces σ w) (bound : i < s.numProcs)
    (node : NodeAt L s i n' w') (asks : w'.Asks L.manner s) (keeps : (w i).Keeps w' L.manner s)
    (new took : List Message) (out : n'.ntwkOutNext = (σ.cpus i).ntwkOutNext ++ new)
    (up : ((w i).up L.manner s i ++ new).Perm (w'.up L.manner s i))
    (inbox : (σ.cpus i).inbox = took ++ n'.inbox)
    (down : (w i).down L.manner s i = took ++ w'.down L.manner s i)
    (misses : st.cacheMisses + (w i).misses s = σ.stats.cacheMisses + w'.misses s)
    (others : st.memoryReads = σ.stats.memoryReads ∧ st.silentUpgrades = σ.stats.silentUpgrades ∧
      st.c2cTransfers = σ.stats.c2cTransfers ∧ st.memoryWrites = σ.stats.memoryWrites) :
    Tracks L s traces { σ with cpus := Function.update σ.cpus i n', stats := st }
      (Function.update w i w') := by
  obtain ⟨reads, raises, transfers, writes⟩ := others
  refine ⟨fun j below => ?_, fun j below => ?_, fun j below => ?_, fun j below => ?_, fun j below => ?_,
    fun j below x mem => ?_, fun busy => ?_, fun j below x need leg => ?_, tracks.lls, ?_, ?_, ?_,
    transfers.trans tracks.transfers, writes.trans tracks.writes⟩
  · by_cases eq : j = i
    · subst j
      rw [Function.update_self, keeps.trace]
      exact tracks.trace i bound
    · rw [Function.update_of_ne eq]
      exact tracks.trace j below
  · by_cases eq : j = i
    · subst j
      rwa [Function.update_self]
    · rw [Function.update_of_ne eq]
      exact tracks.asks j below
  · by_cases eq : j = i
    · subst j
      simpa only [Function.update_self] using node
    · simpa only [Function.update_of_ne eq] using tracks.node j below
  · have old := tracks.up j below
    by_cases eq : j = i
    · subst j
      simp only [System.carried, Function.update_self, out] at old ⊢
      refine List.Perm.trans ?_ up
      refine List.Perm.trans ?_ (old.append_right new)
      simp only [List.append_assoc]
      refine List.Perm.append_left _ (List.perm_append_comm.trans ?_)
      rw [List.append_assoc]
    · simpa only [System.carried, Function.update_of_ne eq] using old
  · have old := tracks.down j below
    by_cases eq : j = i
    · subst j
      simp only [System.arriving, Function.update_self] at old ⊢
      rw [inbox, down, List.append_assoc, List.append_assoc] at old
      simpa only [List.append_assoc] using List.append_cancel_left old
    · simpa only [System.arriving, Function.update_of_ne eq] using old
  · have old := tracks.entry j below x mem
    by_cases eq : j = i
    · subst j
      rwa [Function.update_self, keeps.line]
    · rwa [Function.update_of_ne eq]
  · obtain ⟨j, below, x, need, leg, fields⟩ := tracks.latch busy
    refine ⟨j, below, x, need, ?_, fields⟩
    by_cases eq : j = i
    · subst j
      rw [Function.update_self]
      exact (keeps.latched x need).mpr leg
    · rwa [Function.update_of_ne eq]
  · by_cases eq : j = i
    · subst j
      rw [Function.update_self] at leg
      exact tracks.latched i bound x need ((keeps.latched x need).mp leg)
    · rw [Function.update_of_ne eq] at leg
      exact tracks.latched j below x need leg
  · have sum := sum_update bound w w' (Way.misses · s)
    have old := tracks.misses
    simp only at sum ⊢
    omega
  · have sum := sum_update bound w w' (Way.reads · s)
    have old := tracks.reads
    have same := keeps.reads
    simp only at sum ⊢
    omega
  · have sum := sum_update bound w w' (Way.raises · L.manner s)
    have old := tracks.raises
    have same := keeps.raises
    simp only at sum ⊢
    omega

/-! ## A node's tick and tock -/

theorem Tracks.called (tracks : Tracks L s traces σ w) (bound : i < s.numProcs) :
    Tracks L s traces
      { σ with
        cpus := Function.update σ.cpus i ((σ.cpus i).portStep ((σ.cpus i).called s i))
        stats := ((σ.cpus i).called s i).stats σ.stats }
      (Function.update w i (w i).receive.issue) := by
  obtain ⟨k, stats⟩ := called_stats (σ.cpus i) s i σ.stats
  rw [stats]
  have quiet : ((σ.cpus i).called s i).sends = [] := FiciCpu.tick_sends _ s i _
  refine tracks.cpu bound (tracks.node i bound).portStep (tracks.asks i bound).called
    ((w i).keeps_called L.manner s) [] [] ?_ ?_ rfl ?_ ?_ ⟨rfl, rfl, rfl, rfl⟩
  · simp [CpuNode.portStep, quiet]
  all_goals
    generalize w i = v
    obtain ⟨past, leg, rest⟩ := v
    cases leg <;> cases rest <;>
      simp [Way.receive, Way.issue, Way.up, Way.down, Way.misses, Way.dealt]

/-- The agents' answer to the processor. -/
theorem Tracks.tickProc (tracks : Tracks L s traces σ w) (bound : i < s.numProcs) :
    ∃ n st, (σ.cpus i).tickProc s i σ.stats = .ok (n, st) ∧ n.ntwkIn = (σ.cpus i).ntwkIn ∧
      Tracks L s traces { σ with cpus := Function.update σ.cpus i n, stats := st }
        (Function.update w i ((w i).ask L.manner s)) := by
  obtain ⟨n, st, answered, asked⟩ := (tracks.node i bound).tickProc σ.stats
  obtain ⟨k, misses, stats⟩ := asked.stats
  refine ⟨n, st, answered, asked.ntwkIn, ?_⟩
  rw [stats]
  refine tracks.cpu bound asked.node (tracks.asks i bound).ask ((w i).keeps_ask L.clean_reads s)
    ((w i).sends L.manner s i) [] asked.out ?_ asked.inbox.symm ?_ misses ⟨rfl, rfl, rfl, rfl⟩
  all_goals
    generalize w i = v
    obtain ⟨past, leg, rest⟩ := v
    cases leg with
    | arrived x =>
        cases lacks : (L.manner.hold s past (x.block s)).lacks x.kind <;>
          simp [Way.sends, Way.up, Way.down, Way.ask, lacks]
    | _ => simp [Way.sends, Way.up, Way.down, Way.ask]

/-- The message in the mailbox is the grant the agent waits for. -/
theorem Tracks.arrived (tracks : Tracks L s traces σ w) (bound : i < s.numProcs) {m : Message}
    (arrived : (σ.cpus i).ntwkIn = some m) :
    ∃ x need, (w i).leg = .asked x need .granted ∧ (σ.cpus i).ntwkInNext = none ∧
      m = Message.make s.numProcs i (x.block s) (L.manner.reply need) s := by
  have down := tracks.down i bound
  simp only [System.arriving, CpuNode.inbox, arrived, Option.toList_some, List.cons_append] at down
  cases leg : (w i).leg with
  | asked x need spot =>
      cases spot with
      | granted =>
          simp only [Way.down, leg, List.cons.injEq, List.append_eq_nil_iff] at down
          refine ⟨x, need, rfl, ?_, down.1⟩
          cases next : (σ.cpus i).ntwkInNext with
          | none => rfl
          | some m' => simp [next] at down
      | sent | latched => simp [Way.down, leg] at down
  | idle | issued x | arrived x | answered x | returned x => simp [Way.down, leg] at down

/-- The agents' answer to the network. -/
theorem Tracks.tickNtwk (tracks : Tracks L s traces σ w) (bound : i < s.numProcs) :
    ∃ n, (σ.cpus i).tickNtwk s i σ.stats = .ok (n, σ.stats) ∧
      Tracks L s traces { σ with cpus := Function.update σ.cpus i n, stats := σ.stats }
        (Function.update w i (if (σ.cpus i).ntwkIn.isSome then (w i).accept else w i)) := by
  cases mail : (σ.cpus i).ntwkIn with
  | none =>
      refine ⟨σ.cpus i, by simp only [CpuNode.tickNtwk, mail], ?_⟩
      simpa only [mail, Option.isSome_none, Bool.false_eq_true, if_false, Function.update_eq_self] using
        tracks
  | some m =>
      obtain ⟨x, need, leg, next, rfl⟩ := tracks.arrived bound mail
      obtain ⟨n, answered, node, out, ntwkIn, ntwkInNext⟩ :=
        (tracks.node i bound).tickNtwk (tracks.asks i bound) leg mail ⟨rfl, rfl⟩ σ.stats
      refine ⟨n, answered, ?_⟩
      refine tracks.cpu bound node (tracks.asks i bound).accept (Way.keeps_accept (tracks.asks i bound))
        [] [Message.make s.numProcs i (x.block s) (L.manner.reply need) s] (by rw [out, List.append_nil])
        ?_ ?_ ?_ ?_ ⟨rfl, rfl, rfl, rfl⟩
      · simp [Way.up, Way.accept, leg]
      · simp [CpuNode.inbox, mail, ntwkIn, ntwkInNext]
      · simp [Way.down, Way.accept, leg]
      · simp [Way.misses, Way.dealt, Way.accept, leg]

/-- Whether a node has ticked does not matter, nor does the time. -/
theorem Tracks.timed (tracks : Tracks L s traces σ w) (ticked : NodeId → Bool) (clock : Timestamp) :
    Tracks L s traces { σ with ticked := ticked, clock := clock } w :=
  ⟨tracks.trace, tracks.asks, tracks.node, tracks.up, tracks.down, tracks.entry, tracks.latch,
    tracks.latched, tracks.lls, tracks.misses, tracks.reads, tracks.raises, tracks.transfers, tracks.writes⟩

theorem Tracks.nodeTick (tracks : Tracks L s traces σ w) (bound : i < s.numProcs) :
    ∃ n st, (σ.cpus i).tick s i σ.stats = .ok (n, st) ∧
      Tracks L s traces { σ with cpus := Function.update σ.cpus i n, stats := st }
        (Function.update w i ((w i).tick L.manner s (σ.cpus i).ntwkIn)) := by
  have called := tracks.called bound
  obtain ⟨n₁, st₁, answered, mail, proc⟩ := called.tickProc bound
  obtain ⟨n₂, taken, ntwk⟩ := proc.tickNtwk bound
  simp only [Function.update_self] at answered mail taken ntwk
  refine ⟨n₂, st₁, ?_, ?_⟩
  · unfold CpuNode.tick
    simp only [CpuNode.called] at answered
    simp only [answered, taken]
  · simp only [Function.update_idem, mail] at ntwk
    exact ntwk

theorem Tracks.tick (tracks : Tracks L s traces σ w) {σ' : System F ficiPort}
    (step : σ.step s (.tick i) = .ok σ') :
    Tracks L s traces σ' (Function.update w i ((w i).tick L.manner s (σ.cpus i).ntwkIn)) := by
  simp only [System.step] at step
  split at step
  · next here =>
      split at step
      · cases step
      · next n st result =>
          cases step
          obtain ⟨n', st', ticked, after⟩ := tracks.nodeTick here.1
          cases ticked.symm.trans result
          exact after.timed (Function.update σ.ticked i true) σ.clock
  · cases step

/-- Only the places of messages differ. -/
theorem Tracks.moved (tracks : Tracks L s traces σ w) {σ' : System F ficiPort} {w' : NodeId → Way}
    (keeps : ∀ j, (w j).Keeps (w' j) L.manner s) (asks : ∀ j < s.numProcs, (w' j).Asks L.manner s)
    (same : ∀ j, (w' j).up L.manner s j = (w j).up L.manner s j ∧
      (w' j).down L.manner s j = (w j).down L.manner s j ∧ (w' j).misses s = (w j).misses s)
    (node : ∀ j < s.numProcs, NodeAt L s j (σ'.cpus j) (w' j))
    (carried : ∀ j < s.numProcs, (σ'.carried s j).Perm (σ.carried s j))
    (arriving : ∀ j < s.numProcs, σ'.arriving s j = σ.arriving s j)
    (dir : ∃ requestNext requestQueue ntwkOutNext, σ'.dir =
      { σ.dir with requestNext := requestNext, requestQueue := requestQueue, ntwkOutNext := ntwkOutNext })
    (stats : σ'.stats = σ.stats) : Tracks L s traces σ' w' := by
  obtain ⟨requestNext, requestQueue, ntwkOutNext, dir⟩ := dir
  refine ⟨fun j below => (keeps j).trace.trans (tracks.trace j below), asks, node, fun j below => ?_,
    fun j below => ?_, fun j below x mem => ?_, fun busy => ?_, fun j below x need leg => ?_, ?_, ?_, ?_,
    ?_, ?_, ?_⟩
  · rw [(same j).1]
    exact (carried j below).trans (tracks.up j below)
  · rw [(same j).2.1, arriving j below]
    exact tracks.down j below
  · rw [(keeps j).line, dir]
    exact tracks.entry j below x mem
  · rw [dir] at busy ⊢
    obtain ⟨j, below, x, need, leg, fields⟩ := tracks.latch busy
    exact ⟨j, below, x, need, ((keeps j).latched x need).mpr leg, fields⟩
  · rw [dir]
    exact tracks.latched j below x need (((keeps j).latched x need).mp leg)
  · rw [dir]
    exact tracks.lls
  · rw [stats, tracks.misses]
    exact Finset.sum_congr rfl fun j _ => (same j).2.2.symm
  · rw [stats, tracks.reads]
    exact Finset.sum_congr rfl fun j _ => (keeps j).reads.symm
  · rw [stats, tracks.raises]
    exact Finset.sum_congr rfl fun j _ => (keeps j).raises.symm
  · rw [stats]
    exact tracks.transfers
  · rw [stats]
    exact tracks.writes

theorem Way.Keeps.refl (v : Way) (P : Manner) (s : Settings) : v.Keeps v P s :=
  ⟨rfl, fun _ => rfl, fun _ _ => Iff.rfl, rfl, rfl⟩

theorem Tracks.tock (tracks : Tracks L s traces σ w) (net : Network s σ) {σ' : System F ficiPort}
    (step : σ.step s (.tock i) = .ok σ') : Tracks L s traces σ' (Function.update w i (w i).tock) := by
  simp only [System.step] at step
  split at step
  · next here =>
      cases step
      obtain ⟨bound, ticked⟩ := here
      obtain ⟨free, -⟩ := net.ticked i bound ticked
      have ne : s.numProcs ≠ i := ne_of_gt bound
      refine tracks.moved (fun j => ?_) (fun j below => ?_) (fun j => ?_) (fun j below => ?_)
        (fun j _ => ?_) (fun j _ => ?_) ⟨_, _, _, rfl⟩ rfl
      · by_cases eq : j = i
        · subst j
          rw [Function.update_self]
          exact (w i).keeps_tock L.manner s
        · rw [Function.update_of_ne eq]
          exact .refl _ _ _
      · by_cases eq : j = i
        · subst j
          rw [Function.update_self]
          exact (tracks.asks i bound).tock
        · rw [Function.update_of_ne eq]
          exact tracks.asks j below
      · by_cases eq : j = i
        · subst j
          rw [Function.update_self]
          generalize w i = v
          obtain ⟨past, leg, rest⟩ := v
          cases leg <;> simp [Way.tock, Way.up, Way.down, Way.misses, Way.dealt]
        · rw [Function.update_of_ne eq]
          exact ⟨rfl, rfl, rfl⟩
      · by_cases eq : j = i
        · subst j
          simpa only [Function.update_self] using (tracks.node i bound).tock
        · simpa only [Function.update_of_ne eq] using tracks.node j below
      · simp only [System.carried, Function.update_apply]
        split
        · next eq =>
            subst j
            rw [send_self, filter_dst fun m mem => (net.out i m mem).2]
            simp only [CpuNode.tock, List.nil_append]
            exact List.perm_append_comm.append_right _
        · next other =>
            rw [send_of_ne _ _ other]
      · simp only [System.arriving, Function.update_apply]
        rw [send_of_ne _ _ ne]
        split
        · next eq =>
            subst j
            simp [CpuNode.inbox, CpuNode.tock, free]
        · rfl
  · cases step

theorem Tracks.deliver (tracks : Tracks L s traces σ w) (net : Network s σ) {σ' : System F ficiPort}
    (step : σ.step s (.deliver i) = .ok σ') : Tracks L s traces σ' w := by
  simp only [System.step] at step
  split at step
  · next here =>
      obtain ⟨bound, ticked, empty⟩ := here
      split at step
      · cases step
      · next m rest queue =>
          cases step
          refine tracks.moved (fun j => .refl _ _ _) tracks.asks (fun j => ⟨rfl, rfl, rfl⟩)
            (fun j below => ?_) (fun j below => ?_) (fun j _ => ?_) ⟨_, _, _, rfl⟩ rfl
          · have old := tracks.node j below
            simp only [Function.update_apply]
            split
            · next eq =>
                subst j
                exact ⟨old.cpu, old.cpuInNext, old.cpuIn, old.agents⟩
            · exact old
          · have ne : j ≠ s.numProcs := ne_of_lt below
            simp only [System.carried, Function.update_apply, ne, if_false]
            split
            · next eq => rw [eq]
            · exact .refl _
          · simp only [System.arriving, Function.update_apply, if_true]
            split
            · next eq =>
                subst j
                simp [CpuNode.inbox, (net.ticked i bound ticked).1, empty, queue]
            · rfl
  · cases step

theorem Tracks.dirTock (tracks : Tracks L s traces σ w) {σ' : System F ficiPort}
    (step : σ.step s .dirTock = .ok σ') : Tracks L s traces σ' w := by
  simp only [System.step] at step
  split at step
  · cases step
    refine tracks.moved (fun j => .refl _ _ _) tracks.asks (fun j => ⟨rfl, rfl, rfl⟩) tracks.node
      (fun j below => ?_) (fun j _ => ?_) ⟨_, _, _, rfl⟩ rfl
    · simp only [System.carried, DirectoryController.tock]
      rw [send_of_ne _ _ (ne_of_lt below)]
      refine List.Perm.append_left _ (List.Perm.filter _ ?_)
      simpa using List.perm_append_comm
    · simp only [System.arriving]
      rw [send_self]
      simp
  · cases step

theorem Tracks.dirDeliver (tracks : Tracks L s traces σ w) (net : Network s σ) {σ' : System F ficiPort}
    {src : NodeId} (step : σ.step s (.dirDeliver src) = .ok σ') : Tracks L s traces σ' w := by
  simp only [System.step] at step
  split at step
  · next here =>
      split at step
      · cases step
      · next m rest queue =>
          cases step
          have from_src : m.src = src := net.sent src here.1 m (by simp [queue])
          refine tracks.moved (fun j => .refl _ _ _) tracks.asks (fun j => ⟨rfl, rfl, rfl⟩) tracks.node
            (fun j below => ?_) (fun j _ => ?_) ⟨_, _, _, rfl⟩ rfl
          · simp only [System.carried, Function.update_apply]
            by_cases eq : j = src
            · subst j
              simp only [if_true, Function.update_self, queue, List.filter_append, List.filter_cons,
                from_src, decide_true, List.append_assoc, List.cons_append, List.nil_append]
              refine List.Perm.append_left _ ?_
              rw [← List.append_assoc]
              refine List.perm_middle.trans ?_
              rw [List.append_assoc]
            · simp only [if_neg eq, List.filter_append, List.filter_cons, from_src,
                List.filter_nil, Ne.symm eq, decide_false, Bool.false_eq_true, if_false, List.append_nil]
              exact .refl _
          · simp only [System.arriving, Function.update_apply]
            rw [if_neg (ne_of_gt here.1)]
  · cases step

/-! ## The directory's tick -/

/-- A block that is new to the shared cache misses, and is in it from then on. -/
theorem LlsCache.access_new {c : LlsCache} {b : BlockId} (new : ∀ k, b ∉ c.sets k) :
    (c.access b).2.hit = false ∧ ∀ k, ∀ b' ∈ (c.access b).1.sets k, b' = b ∨ b' ∈ c.sets k := by
  have grown (k j : Nat) (l : List BlockId) (sub : ∀ b' ∈ l, b' ∈ c.sets k) (b' : BlockId)
      (mem : b' ∈ Function.update c.sets k (b :: l) j) : b' = b ∨ b' ∈ c.sets j := by
    by_cases eq : j = k
    · subst j
      rw [Function.update_self, List.mem_cons] at mem
      exact mem.imp_right (sub b')
    · rw [Function.update_of_ne eq] at mem
      exact .inr mem
  unfold LlsCache.access
  split
  · exact ⟨rfl, fun k b' mem => .inr mem⟩
  · simp only [new, if_false]
    split
    · exact ⟨rfl, fun j b' mem => grown _ j _ (fun _ => List.mem_of_mem_dropLast) b' mem⟩
    · exact ⟨rfl, fun j b' mem => grown _ j _ (fun _ => id) b' mem⟩

/-- Counters of the shared cache aside. -/
structure SameCounts (st st' : CoherenceStats) : Prop where
  misses : st'.cacheMisses = st.cacheMisses
  reads : st'.memoryReads = st.memoryReads
  raises : st'.silentUpgrades = st.silentUpgrades
  transfers : st'.c2cTransfers = st.c2cTransfers
  writes : st'.memoryWrites = st.memoryWrites

/-- Memory is asked for a block that is new to the shared cache. -/
theorem scheduleDataResponse_new {d : DirectoryController} {block : BlockId}
    (new : ∀ k, block ∉ d.lls.sets k) (s : Settings) (st : CoherenceStats) (target : NodeId) :
    ∃ lls delay st', d.scheduleDataResponse s st block target =
        ({ d with lls := lls }.latch block target delay true, st') ∧ SameCounts st st' ∧
      ∀ k, ∀ b ∈ lls.sets k, b = block ∨ b ∈ d.lls.sets k := by
  obtain ⟨miss, grown⟩ := LlsCache.access_new new
  unfold DirectoryController.scheduleDataResponse
  cases s.cacheMode with
  | privateL2 => exact ⟨d.lls, _, _, rfl, ⟨rfl, rfl, rfl, rfl, rfl⟩, fun k b mem => .inr mem⟩
  | sharedLls =>
      simp only [miss, Bool.false_eq_true, if_false]
      exact ⟨_, _, _, rfl, ⟨rfl, rfl, rfl, rfl, rfl⟩, grown⟩

/-- What carrying the outcome out leaves in the counters and the shared cache. -/
structure Carried (P : Manner) (need : Need) (block : BlockId) (d d' : DirectoryController)
    (st st' : CoherenceStats) : Prop where
  misses : st'.cacheMisses = st.cacheMisses
  reads : st'.memoryReads = st.memoryReads
  raises : st'.silentUpgrades =
    st.silentUpgrades + if need = .raise ∧ P.clean = true then 1 else 0
  transfers : st'.c2cTransfers = st.c2cTransfers
  writes : st'.memoryWrites = st.memoryWrites
  lls : ∀ k, ∀ b ∈ d'.lls.sets k, b = block ∨ b ∈ d.lls.sets k
  miss : need ≠ .raise → d'.pendingLlsMiss = true

theorem TakesUp.carried {P : Manner} {entry : Hold → DirState} {n : Nat} {r : Message} {need : Need}
    {o : Outcome} (takes : TakesUp P entry n r need o) (d : DirectoryController)
    (new : need ≠ .raise → ∀ k, r.block ∉ d.lls.sets k) (st : CoherenceStats) (rest : List Message) :
    Carried P need r.block d (d.carryOut s st r rest o).1 st (d.carryOut s st r rest o).2 := by
  unfold DirectoryController.carryOut
  simp only [takes.schedule, takes.stats]
  by_cases raise : need = .raise
  · subst need
    cases clean : P.clean <;>
      exact ⟨by simp, by simp, by simp [clean], by simp, by simp, fun k b mem => .inr mem,
        fun other => absurd rfl other⟩
  · simp only [raise, if_false, false_and]
    obtain ⟨lls, delay, st', eq, same, grown⟩ := scheduleDataResponse_new (d :=
      { d with
        directory := Function.update d.directory r.block o.entry
        requestQueue := rest
        requestNext := if o.cycled then d.requestNext ++ [r] else d.requestNext
        ntwkOutNext := d.ntwkOutNext ++ o.sends.map (DirectoryController.request s)
        sendE := d.sendE || o.sendE }) (new raise) s st r.src
    simp only [id_eq, eq]
    refine ⟨same.misses, same.reads, ?_, same.transfers, same.writes, grown, fun _ => rfl⟩
    simpa [raise] using same.raises

/-- The message at the head of the queue is the request of a CPU that waits for it. -/
theorem Tracks.head (tracks : Tracks L s traces σ w) (net : Network s σ) {r : Message}
    {rest : List Message} (queue : σ.dir.requestQueue = r :: rest) :
    r.src < s.numProcs ∧ ∃ x need, (w r.src).leg = .asked x need .sent ∧
      r = Message.make r.src s.numProcs (x.block s) (L.manner.request need) s := by
  have bound := net.queued r (by simp [queue])
  have up := tracks.up r.src bound
  have mem : r ∈ (w r.src).up L.manner s r.src :=
    up.mem_iff.mp (by simp [System.carried, queue])
  refine ⟨bound, ?_⟩
  unfold Way.up at mem
  split at mem
  · next x need leg => exact ⟨x, need, leg, List.mem_singleton.mp mem⟩
  · cases mem

theorem Way.mem_trace {v : Way} {x : Instruction} (pending : x ∈ v.leg.pending) : x ∈ v.trace :=
  List.mem_append_left _ (List.mem_append_right _ pending)

/-- A request that is taken up or answered is still the node's. -/
theorem NodeAt.take {n : CpuNode F ficiPort} (here : NodeAt L s i n w') : NodeAt L s i n w'.take := by
  obtain ⟨past, leg, rest⟩ := w'
  cases leg with
  | asked x need spot =>
      cases spot with
      | sent => exact ⟨here.cpu, here.cpuInNext, here.cpuIn, here.agents⟩
      | latched | granted => exact here
  | idle | issued x | arrived x | answered x | returned x => exact here

theorem NodeAt.respond {n : CpuNode F ficiPort} (here : NodeAt L s i n w') :
    NodeAt L s i n w'.respond := by
  obtain ⟨past, leg, rest⟩ := w'
  cases leg with
  | asked x need spot =>
      cases spot with
      | latched => exact ⟨here.cpu, here.cpuInNext, here.cpuIn, here.agents⟩
      | sent | granted => exact here
  | idle | issued x | arrived x | answered x | returned x => exact here

/-- The half of the directory's tick that reads the queue. -/
theorem Tracks.takeUp (tracks : Tracks L s traces σ w) (net : Network s σ)
    (small : s.numProcs ≤ kMaxSharers) (apart : PrivateTraces s traces)
    (free : σ.dir.requestInProgress = false) {r : Message} {rest : List Message}
    (queue : σ.dir.requestQueue = r :: rest) :
    ∃ d st, System.processQueue F s σ.dir σ.stats = .ok (d, st) ∧
      d.requestNext = σ.dir.requestNext ∧ st.memoryReads = σ.stats.memoryReads ∧
      Tracks L s traces { σ with dir := d, stats := st } (Function.update w r.src (w r.src).take) := by
  obtain ⟨bound, x, need, leg, made⟩ := tracks.head net queue
  have block : r.block = x.block s := by rw [made]; rfl
  have kind : r.kind = L.manner.request need := by rw [made]; rfl
  have lacks := (tracks.asks r.src bound x need _ leg).1
  have mem : x ∈ traces r.src := by
    rw [← tracks.trace r.src bound]
    exact Way.mem_trace (by simp [leg, Leg.pending])
  have own := tracks.entry r.src bound x mem
  have line : (w r.src).line L.manner s (x.block s) = need.short := by
    rw [Hold.short_of_lacks lacks]
    simp only [Way.line, leg]
  rw [line, ← block] at own
  obtain ⟨o, handled, takes⟩ :=
    L.takesUp s _ r need small bound own (fun raise => reads_of_raise (raise ▸ lacks)) kind
  have writes : handleWriteback (σ.dir.directory r.block) r = none := by
    unfold handleWriteback
    rw [if_pos (kind ▸ L.manner.request_ne need)]
  have new : need ≠ .raise → ∀ k, r.block ∉ σ.dir.lls.sets k := by
    intro first k cached
    refine tracks.lls k _ cached ?_
    have short : need.short = .nothing := by cases need <;> first | rfl | exact absurd rfl first
    rw [own.state, short, L.none]
  have carried := takes.carried (s := s) σ.dir new σ.stats rest
  obtain ⟨directory, queue', next, out, sendE, idle, latched⟩ := carryOut_fields σ.dir s σ.stats r rest o
  refine ⟨(σ.dir.carryOut s σ.stats r rest o).1, (σ.dir.carryOut s σ.stats r rest o).2, ?_, ?_,
    carried.reads, ?_⟩
  · simp only [System.processQueue, free, Bool.false_eq_true, if_false, queue, writes, handled]
  · simpa [takes.cycled] using next
  obtain ⟨past, rest', here⟩ : ∃ past rest', w r.src = ⟨past, .asked x need .sent, rest'⟩ :=
    ⟨_, _, by rw [← leg]⟩
  have way : (w r.src).take =
      ⟨past, .asked x need (if need = .raise then .granted else .latched), rest'⟩ := by
    rw [here]
    rfl
  have asks : (w r.src).take.Asks L.manner s := by
    rw [way]
    rintro y need' spot ⟨⟩
    refine ⟨?_, fun latched raise => ?_⟩
    · simpa only [here] using lacks
    · simp [raise] at latched
  have idled : need = .raise →
      (σ.dir.carryOut s σ.stats r rest o).1.requestInProgress = false := by
    intro raise
    rw [idle (by rw [takes.schedule, if_pos raise]), free]
  refine ⟨fun j below => ?_, fun j below => ?_, fun j below => ?_, fun j below => ?_, fun j below => ?_,
    fun j below y mem' => ?_, fun busy => ?_, fun j below y need' leg' => ?_, fun k b cached => ?_, ?_, ?_,
    ?_, carried.transfers.trans tracks.transfers, carried.writes.trans tracks.writes⟩
  · rw [← tracks.trace j below]
    by_cases eq : j = r.src
    · rw [eq, Function.update_self, way, here]
      rfl
    · rw [Function.update_of_ne eq]
  · by_cases eq : j = r.src
    · rwa [eq, Function.update_self]
    · rw [Function.update_of_ne eq]
      exact tracks.asks j below
  · by_cases eq : j = r.src
    · rw [eq, Function.update_self]
      exact (tracks.node _ bound).take
    · rw [Function.update_of_ne eq]
      exact tracks.node j below
  · have old := tracks.up j below
    simp only [System.carried, queue, List.filter_append, List.filter_cons] at old
    simp only [System.carried, queue', next, takes.cycled, Bool.false_eq_true, if_false,
      List.filter_append]
    by_cases eq : j = r.src
    · subst eq
      have one : (w r.src).up L.manner s r.src = [r] := by simp only [Way.up, leg, ← made]
      have gone : (w r.src).take.up L.manner s r.src = [] := by
        rw [way]
        by_cases raise : need = .raise <;> simp [Way.up, raise]
      rw [Function.update_self, gone]
      simp only [decide_true, if_true, one] at old
      rw [← List.append_assoc] at old
      have rest := (List.perm_middle.symm.trans old).cons_inv
      simpa only [List.append_assoc] using rest
    · rw [Function.update_of_ne eq]
      simpa [Ne.symm eq] using old
  · have old := tracks.down j below
    simp only [System.arriving] at old
    simp only [System.arriving, out, List.filter_append]
    rw [← List.append_assoc, old, takes.sends]
    by_cases eq : j = r.src
    · subst eq
      rw [Function.update_self, way, here]
      by_cases raise : need = .raise
      · subst raise
        simp [Way.down, DirectoryController.request, Manner.reply, ← block, Message.make]
      · simp [Way.down, raise]
    · rw [Function.update_of_ne eq]
      split <;> simp [DirectoryController.request, Ne.symm eq]
  · have old := tracks.entry j below y mem'
    rw [directory]
    by_cases eq : j = r.src
    · subst eq
      rw [Function.update_self, way]
      by_cases same : y.block s = r.block
      · rw [same, Function.update_self]
        have after : Way.line ⟨past, .asked x need (if need = .raise then .granted else .latched), rest'⟩
            L.manner s r.block = L.manner.gains need := by
          by_cases raise : need = .raise <;> simp [Way.line, raise, block]
        rw [after]
        exact takes.entry
      · rw [Function.update_of_ne same]
        have after : Way.line ⟨past, .asked x need (if need = .raise then .granted else .latched), rest'⟩
            L.manner s (y.block s) = (w r.src).line L.manner s (y.block s) := by
          rw [here]
          rw [block] at same
          by_cases raise : need = .raise <;> simp [Way.line, raise, same]
        rwa [after]
    · have other : y.block s ≠ r.block := block ▸ apart j below r.src bound eq y mem' x mem
      rwa [Function.update_of_ne eq, Function.update_of_ne other]
  · have first : need ≠ .raise := fun raise => by
      cases (idled raise).symm.trans busy
    obtain ⟨-, tag, target⟩ := latched _ (by rw [takes.schedule, if_neg first])
    refine ⟨r.src, bound, x, need, ?_, target, tag.trans block, ?_, carried.miss first⟩
    · rw [Function.update_self, way, if_neg first]
    · rw [sendE, net.sendE free, Bool.false_or, takes.sendE]
  · by_cases eq : j = r.src
    · subst eq
      rw [Function.update_self, way] at leg'
      have first : need ≠ .raise := fun raise => by simp [raise] at leg'
      obtain ⟨busy, -, target⟩ := latched _ (by rw [takes.schedule, if_neg first])
      exact ⟨busy, target⟩
    · rw [Function.update_of_ne eq] at leg'
      cases free.symm.trans (tracks.latched j below y need' leg').1
  · rw [directory]
    by_cases same : b = r.block
    · rw [same, Function.update_self, takes.entry.state]
      exact L.taken need
    · rw [Function.update_of_ne same]
      exact tracks.lls k b ((carried.lls k b cached).resolve_left same)
  · have sum := sum_update bound w (w r.src).take (Way.misses · s)
    have same : (w r.src).take.misses s = (w r.src).misses s := by
      rw [way, here]
      rfl
    have old := tracks.misses
    have now := carried.misses
    simp only at sum ⊢
    omega
  · have sum := sum_update bound w (w r.src).take (Way.reads · s)
    have same : (w r.src).take.reads s = (w r.src).reads s := by
      rw [way, here]
      by_cases raise : need = .raise
      · have held : L.manner.hold s past (x.block s) ≠ .nothing := by
          rw [here] at lacks
          rw [← Hold.short_of_lacks lacks, raise]
          intro none
          cases none
        simp [Way.reads, Way.served, raise, L.manner.card_touched_snoc, held]
      · simp [Way.reads, Way.served, raise]
    have old := tracks.reads
    have now := carried.reads
    simp only at sum ⊢
    omega
  · have sum := sum_update bound w (w r.src).take (Way.raises · L.manner s)
    have more : (w r.src).take.raises L.manner s =
        (w r.src).raises L.manner s + if need = .raise ∧ L.manner.clean = true then 1 else 0 := by
      have taken : (w r.src).take.takenUp = past ++ [x] := by
        rw [way]
        by_cases raise : need = .raise <;> simp [Way.takenUp, raise]
      simp only [Way.raises, taken]
      rw [here] at lacks ⊢
      by_cases clean : L.manner.clean = true
      · rw [if_pos clean, if_pos clean, Manner.card_raised_snoc (L.clean_reads clean)]
        simp only [clean, and_true, Hold.lacks_raise x.kind_or lacks, Way.takenUp]
      · rw [if_neg clean, if_neg clean, if_neg (mt And.right clean)]
    have old := tracks.raises
    have now := carried.raises
    simp only at sum ⊢
    omega

/-- Memory's answer to a first request. -/
theorem respond_own {d : DirectoryController} {need : Need} (first : need ≠ .raise)
    (due : d.requestInProgress ∧ d.responseTime ≤ d.currentClock)
    (sendE : d.sendE = (L.manner.reply need == .dataE)) (miss : d.pendingLlsMiss = true)
    (st : CoherenceStats) : d.respond s F.usesE st =
      ({ d.sendRequest s { dest := d.targetNode, tag := d.tagToSend, kind := L.manner.reply need } with
          sendE := false, requestInProgress := false },
        { st with memoryReads := st.memoryReads + 1 }) := by
  have reply := L.manner.reply_first first
  unfold DirectoryController.respond
  rw [if_pos due]
  simp only [miss, if_true, sendE, beq_iff_eq]
  by_cases dataE : L.manner.reply need = .dataE
  · rw [if_pos ⟨L.usesE (Manner.clean_of_reply dataE), dataE⟩, dataE]
  · rw [if_neg (mt And.right dataE)]
    rw [if_neg dataE] at reply
    have unmarked : d.sendE = false := by rw [sendE]; exact beq_eq_false_iff_ne.mpr dataE
    simp only [DirectoryController.sendRequest, reply, unmarked]

/-- The half of the directory's tick that answers from memory. -/
theorem Tracks.respond (tracks : Tracks L s traces σ w) :
    Tracks L s traces
      { σ with dir := (σ.dir.respond s F.usesE σ.stats).1, stats := (σ.dir.respond s F.usesE σ.stats).2 }
      (if σ.dir.requestInProgress ∧ σ.dir.responseTime ≤ σ.dir.currentClock then
        Function.update w σ.dir.targetNode (w σ.dir.targetNode).respond
      else w) := by
  by_cases due : σ.dir.requestInProgress ∧ σ.dir.responseTime ≤ σ.dir.currentClock
  · obtain ⟨i, bound, x, need, leg, target, tag, sendE, miss⟩ := tracks.latch due.1
    have first := (tracks.asks i bound x need _ leg).2 rfl
    have lacks := (tracks.asks i bound x need _ leg).1
    rw [if_pos due, respond_own first due sendE miss, target, tag]
    obtain ⟨past, rest, here⟩ : ∃ past rest, w i = ⟨past, .asked x need .latched, rest⟩ :=
      ⟨_, _, by rw [← leg]⟩
    have way : (w i).respond = ⟨past, .asked x need .granted, rest⟩ := by
      rw [here]
      rfl
    refine ⟨fun j below => ?_, fun j below => ?_, fun j below => ?_, fun j below => ?_, fun j below => ?_,
      fun j below y mem' => ?_, fun busy => ?_, fun j below y need' leg' => ?_, tracks.lls, ?_, ?_,
      ?_, tracks.transfers, tracks.writes⟩
    · rw [← tracks.trace j below]
      by_cases eq : j = i
      · rw [eq, Function.update_self, way, here]
        rfl
      · rw [Function.update_of_ne eq]
    · by_cases eq : j = i
      · rw [eq, Function.update_self, way]
        rintro y need' spot ⟨⟩
        exact ⟨by simpa only [here] using lacks, nofun⟩
      · rw [Function.update_of_ne eq]
        exact tracks.asks j below
    · by_cases eq : j = i
      · rw [eq, Function.update_self]
        exact (tracks.node i bound).respond
      · rw [Function.update_of_ne eq]
        exact tracks.node j below
    · have old := tracks.up j below
      by_cases eq : j = i
      · subst eq
        rw [here] at old
        rwa [Function.update_self, way]
      · rwa [Function.update_of_ne eq]
    · have old := tracks.down j below
      simp only [System.arriving] at old
      simp only [System.arriving, DirectoryController.sendRequest, List.filter_append]
      rw [← List.append_assoc, old]
      by_cases eq : j = i
      · subst eq
        rw [Function.update_self, way, here]
        simp [Way.down, DirectoryController.request, Message.make]
      · rw [Function.update_of_ne eq]
        simp [DirectoryController.request, Ne.symm eq]
    · have old := tracks.entry j below y mem'
      by_cases eq : j = i
      · subst eq
        rw [here] at old
        rwa [Function.update_self, way]
      · rwa [Function.update_of_ne eq]
    · cases busy
    · have only : ∀ j < s.numProcs, ∀ y need', (w j).leg = .asked y need' .latched → j = i :=
        fun j below y need' leg' => ((tracks.latched j below y need' leg').2.symm.trans target)
      by_cases eq : j = i
      · subst eq
        rw [Function.update_self, way] at leg'
        cases leg'
      · rw [Function.update_of_ne eq] at leg'
        exact absurd (only j below y need' leg') eq
    · have sum := sum_update bound w (w i).respond (Way.misses · s)
      have same : (w i).respond.misses s = (w i).misses s := by
        rw [way, here]
        rfl
      have old := tracks.misses
      simp only at sum ⊢
      omega
    · have sum := sum_update bound w (w i).respond (Way.reads · s)
      have more : (w i).respond.reads s = (w i).reads s + 1 := by
        have held : L.manner.hold s past (x.block s) = .nothing := by
          rw [here] at lacks
          rw [← Hold.short_of_lacks lacks]
          cases need <;> first | rfl | exact absurd rfl first
        rw [way, here]
        simp only [Way.reads, Way.served, L.manner.card_touched_snoc, held, if_true]
      have old := tracks.reads
      simp only at sum ⊢
      omega
    · have sum := sum_update bound w (w i).respond (Way.raises · L.manner s)
      have same : (w i).respond.raises L.manner s = (w i).raises L.manner s := by
        rw [way, here]
        rfl
      have old := tracks.raises
      simp only at sum ⊢
      omega
  · have idle : σ.dir.respond s F.usesE σ.stats = (σ.dir, σ.stats) := by
      unfold DirectoryController.respond
      rw [if_neg due]
    rw [if_neg due, idle]
    exact tracks

/-- The ways after the directory has read its queue. -/
def System.takenUp (σ : System F ficiPort) (w : NodeId → Way) : NodeId → Way :=
  if σ.dir.requestInProgress then w
  else match σ.dir.requestQueue with
    | [] => w
    | r :: _ => Function.update w r.src (w r.src).take

theorem Tracks.processQueue (tracks : Tracks L s traces σ w) (net : Network s σ)
    (small : s.numProcs ≤ kMaxSharers) (apart : PrivateTraces s traces) :
    ∃ d st, System.processQueue F s σ.dir σ.stats = .ok (d, st) ∧
      d.requestNext = σ.dir.requestNext ∧ st.memoryReads = σ.stats.memoryReads ∧
      Tracks L s traces { σ with dir := d, stats := st } (σ.takenUp w) := by
  unfold System.takenUp
  cases busy : σ.dir.requestInProgress with
  | true => exact ⟨σ.dir, σ.stats, by simp [System.processQueue, busy], rfl, rfl, tracks⟩
  | false =>
      cases queue : σ.dir.requestQueue with
      | nil => exact ⟨σ.dir, σ.stats, by simp [System.processQueue, busy, queue], rfl, rfl, tracks⟩
      | cons r rest => exact tracks.takeUp net small apart busy queue

/-- The directory's clock is set. -/
def System.clocked (σ : System F ficiPort) : System F ficiPort :=
  { σ with dir := { σ.dir with currentClock := σ.clock } }

theorem Tracks.clocked (tracks : Tracks L s traces σ w) : Tracks L s traces σ.clocked w :=
  ⟨tracks.trace, tracks.asks, tracks.node, tracks.up, tracks.down, tracks.entry, tracks.latch,
    tracks.latched, tracks.lls, tracks.misses, tracks.reads, tracks.raises, tracks.transfers, tracks.writes⟩

theorem Network.clocked (net : Network s σ) : Network s σ.clocked :=
  ⟨net.out, net.sent, net.queued, net.ticked, net.tocked, net.sendE⟩

/-- The directory's tick throws nothing. -/
theorem tickDir_ok {d : DirectoryController} {st : CoherenceStats}
    (taken : System.processQueue F s σ.clocked.dir σ.stats = .ok (d, st)) :
    System.tickDir F s σ.dir σ.clock σ.stats = .ok (d.respond s F.usesE st) := by
  unfold System.tickDir
  have taken : System.processQueue F s { σ.dir with currentClock := σ.clock } σ.stats = .ok (d, st) :=
    taken
  rw [taken]

theorem Tracks.dirTick (tracks : Tracks L s traces σ w) (net : Network s σ)
    (small : s.numProcs ≤ kMaxSharers) (apart : PrivateTraces s traces) {σ' : System F ficiPort}
    (step : σ.step s .dirTick = .ok σ') :
    ∃ d st, System.processQueue F s σ.clocked.dir σ.stats = .ok (d, st) ∧
      d.requestNext = σ.dir.requestNext ∧ st.memoryReads = σ.stats.memoryReads ∧
      σ' = { σ with
        dir := (d.respond s F.usesE st).1
        ticked := Function.update σ.ticked s.numProcs true
        stats := (d.respond s F.usesE st).2 } ∧
      Tracks L s traces { σ with dir := d, stats := st } (σ.takenUp w) ∧
      Tracks L s traces σ'
        (if d.requestInProgress ∧ d.responseTime ≤ d.currentClock then
          Function.update (σ.takenUp w) d.targetNode (σ.takenUp w d.targetNode).respond
        else σ.takenUp w) := by
  obtain ⟨d, st, taken, next, reads, first⟩ := tracks.clocked.processQueue net.clocked small apart
  have second := first.respond.timed (Function.update σ.ticked s.numProcs true) σ.clock
  refine ⟨d, st, taken, next, reads, ?_⟩
  simp only [System.step] at step
  split at step
  · rw [tickDir_ok taken] at step
    cases step
    exact ⟨rfl, first, second⟩
  · cases step

/-! ## Runs -/

/-- Before the first cycle every way is ahead. -/
theorem Tracks.initial (L : Own F) (s : Settings) (traces : NodeId → List Instruction) :
    Tracks L s traces (coherenceMode F s traces) fun i => { rest := traces i } where
  trace i _ := by simp [Way.trace, Way.issued, Leg.pending]
  asks i _ := by rintro x need spot ⟨⟩
  node i _ := by
    constructor
    case agents => exact fun b => L.initial
    all_goals rfl
  up i _ := .refl _
  down i _ := rfl
  entry i _ x _ :=
    have nobody : Members s.numProcs (fun _ => false) 0 ∅ := ⟨by simp, rfl, by simp⟩
    ⟨L.none.symm, rfl, nobody⟩
  latch busy := nomatch busy
  latched i _ x need leg := nomatch leg
  lls k b mem := by
    have empty (blocks assoc : Nat) : (LlsCache.build blocks assoc).sets k = [] := by
      unfold LlsCache.build
      split <;> rfl
    simp only [coherenceMode, System.initial, DirectoryController.make] at mem
    split at mem <;> simp [empty] at mem
  misses := (Finset.sum_eq_zero fun _ _ => rfl).symm
  reads := (Finset.sum_eq_zero fun _ _ => rfl).symm
  raises := by
    refine (Finset.sum_eq_zero fun _ _ => ?_).symm
    unfold Way.raises
    split <;> rfl
  transfers := rfl
  writes := rfl

theorem Tracks.step (tracks : Tracks L s traces σ w) (net : Network s σ)
    (small : s.numProcs ≤ kMaxSharers) (apart : PrivateTraces s traces) {a : Action ficiPort}
    {σ' : System F ficiPort} (step : σ.step s a = .ok σ') : ∃ w', Tracks L s traces σ' w' := by
  cases a with
  | tick i => exact ⟨_, tracks.tick step⟩
  | tock i => exact ⟨_, tracks.tock net step⟩
  | deliver i => exact ⟨_, tracks.deliver net step⟩
  | external i event => exact event.elim
  | dirTick =>
      obtain ⟨d, st, -, -, -, -, -, after⟩ := tracks.dirTick net small apart step
      exact ⟨_, after⟩
  | dirTock => exact ⟨_, tracks.dirTock step⟩
  | dirDeliver src => exact ⟨_, tracks.dirDeliver net step⟩

/-- In every run the CPUs go their ways. -/
theorem Tracks.run (L : Own F) (N : Laws F) (small : s.numProcs ≤ kMaxSharers)
    (apart : PrivateTraces s traces)
    (reached : (System.machine F ficiPort s).Reachable (coherenceMode F s traces) σ) :
    Network s σ ∧ ∃ w, Tracks L s traces σ w := by
  have net {σ : System F ficiPort}
      (reached : (System.machine F ficiPort s).Reachable (coherenceMode F s traces) σ) : Network s σ := by
    obtain ⟨lines, shows, -⟩ := settled_run N small reached
    exact shows.net
  refine ⟨net reached, ?_⟩
  refine reached.invariant_under (J := Network s) (I := fun σ => ∃ w, Tracks L s traces σ w)
    (fun _ => net) ⟨_, .initial L s traces⟩ ?_
  rintro σ a σ' net ⟨w, tracks⟩ - step
  exact tracks.step net small apart step

/-! ## The end of a run -/

/-- Every CPU has reached the end of its trace and has its last answer. -/
def System.isDone (s : Settings) (σ : System F ficiPort) : Prop :=
  ∀ i < s.numProcs, FiciCpu.isDone (σ.cpus i).cpu = true

/-- The distinct pairs of a CPU and a block it touches. -/
def touchedPairs (s : Settings) (traces : NodeId → List Instruction) :
    Finset ((_ : NodeId) × BlockId) :=
  (Finset.range s.numProcs).sigma fun i => touched s (traces i)

/-- The pairs of a CPU and a block that it first reads and later writes. -/
def raisedPairs (s : Settings) (traces : NodeId → List Instruction) :
    Finset ((_ : NodeId) × BlockId) :=
  (Finset.range s.numProcs).sigma fun i => raised s (traces i)

theorem NodeAt.done {n : CpuNode F ficiPort} {v : Way} (here : NodeAt L s i n v)
    (done : FiciCpu.isDone n.cpu = true) : v.leg = .idle ∧ v.past = v.trace := by
  have cpu : n.cpu = _ := here.cpu
  simp only [cpu, FiciCpu.isDone, Way.cpu, Bool.and_eq_true, Bool.not_eq_true', List.isEmpty_iff] at done
  have idle : v.leg = .idle := by
    cases leg : v.leg <;> simp [leg, Leg.busy] at done ⊢
  exact ⟨idle, by simp [Way.trace, Way.issued, Leg.pending, idle, done.1]⟩

/-- At the end the counters are those of the traces. -/
theorem Tracks.finished (tracks : Tracks L s traces σ w) (done : σ.isDone s) :
    σ.stats.cacheMisses = (touchedPairs s traces).card ∧
      σ.stats.memoryReads = (touchedPairs s traces).card ∧ σ.stats.c2cTransfers = 0 ∧
      σ.stats.memoryWrites = 0 ∧
      σ.stats.silentUpgrades = if L.manner.clean then (raisedPairs s traces).card else 0 := by
  have past {i : NodeId} (mem : i ∈ Finset.range s.numProcs) :
      (w i).leg = .idle ∧ (w i).past = traces i := by
    have bound := Finset.mem_range.mp mem
    obtain ⟨idle, all⟩ := (tracks.node i bound).done (done i bound)
    exact ⟨idle, all.trans (tracks.trace i bound)⟩
  refine ⟨?_, ?_, tracks.transfers, tracks.writes, ?_⟩
  · rw [tracks.misses, touchedPairs, Finset.card_sigma]
    refine Finset.sum_congr rfl fun i mem => ?_
    obtain ⟨idle, all⟩ := past mem
    simp only [Way.misses, Way.dealt, idle, all]
  · rw [tracks.reads, touchedPairs, Finset.card_sigma]
    refine Finset.sum_congr rfl fun i mem => ?_
    obtain ⟨idle, all⟩ := past mem
    simp only [Way.reads, Way.served, idle, all]
  · rw [tracks.raises, raisedPairs, Finset.card_sigma]
    split
    · next clean =>
        refine Finset.sum_congr rfl fun i mem => ?_
        obtain ⟨idle, all⟩ := past mem
        simp only [Way.raises, Way.takenUp, idle, all, clean, if_true]
    · next unclean =>
        refine Finset.sum_eq_zero fun i _ => ?_
        rw [Way.raises, if_neg unclean]

end

end Coherence
