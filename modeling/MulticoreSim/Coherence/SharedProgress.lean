import MulticoreSim.Library.DirectoryProtocol.Ranking
import MulticoreSim.Coherence.PrivateRounds
import MulticoreSim.Coherence.CoherenceMode

/-! # Progress over shared data

What a CPU has not asked for yet, and how far its request has to go in its own
node, in one number. Whatever the CPUs share, its node never takes it back.
-/

namespace Coherence

open DirectoryProtocol Station

/-- The CPUs. -/
def Settings.nodes (s : Settings) : Finset NodeId := Finset.range s.numProcs

theorem mem_nodes {s : Settings} {i : NodeId} : i ∈ s.nodes ↔ i < s.numProcs := Finset.mem_range

/-- What one request may cost its line. -/
def Settings.cost (s : Settings) : Nat := Block.cost s.nodes

/-- What one instruction may cost. -/
def Settings.stretch (s : Settings) : Nat := s.cost + 6

variable {F : ProtocolFsm}

/-- The instructions not issued yet. -/
def FiciCpu.left (c : FiciCpu) : Nat := c.instrs.length - c.curip

/-- How far a CPU's request has to go without what its line has left. -/
def Station.rank (s : Settings) : Station → Nat
  | .idle => 0
  | .issued _ => s.cost + 5
  | .arrived _ => s.cost + 4
  | .asked _ => 3
  | .answered _ => 2
  | .returned _ => 1

/-- The same, read off the mailboxes. -/
def CpuNode.stage (s : Settings) (n : CpuNode F ficiPort) : Nat :=
  if n.cpuInNext.isSome then s.cost + 5
  else if n.cpuIn.isSome then s.cost + 4
  else if (FiciCpu.cacheInNext n.cpu).isSome then 2
  else if (FiciCpu.cacheIn n.cpu).isSome then 1
  else if FiciCpu.outstanding n.cpu then 3
  else 0

def CpuNode.rank (s : Settings) (n : CpuNode F ficiPort) : Nat := FiciCpu.left n.cpu * s.stretch + n.stage s

section

variable {L : AgentLaws F} {s : Settings} {i : NodeId} {n : CpuNode F ficiPort} {t : Station}
  {blocks : Finset BlockId} {instrs : List Instruction}

theorem Station.At.stage (here : At L n t) : n.stage s = t.rank s := by
  have cpuInNext := here.cpuInNext
  have cpuIn := here.cpuIn
  have cacheInNext := here.cacheInNext
  have cacheIn := here.cacheIn
  have outstanding := here.outstanding
  unfold CpuNode.stage
  cases t with
  | idle | asked b =>
      simp_all [Station.cpuInNext, Station.cpuIn, Station.cacheInNext, Station.cacheIn, Station.rank]
  | issued m | arrived m | answered m | returned m =>
      simp_all [Station.cpuInNext, Station.cpuIn, Station.cacheInNext, Station.cacheIn, Station.rank]

theorem Station.At.rank (here : At L n t) : n.rank s = FiciCpu.left n.cpu * s.stretch + t.rank s := by
  rw [CpuNode.rank, here.stage]

theorem stage_lt (s : Settings) (n : CpuNode F ficiPort) : n.stage s < s.stretch := by
  unfold CpuNode.stage Settings.stretch
  split_ifs <;> omega

/-! ## A node along the run -/

/-- A node replays its trace and asks for blocks of the traces only. -/
structure Replays (L : AgentLaws F) (blocks : Finset BlockId) (instrs : List Instruction)
    (n : CpuNode F ficiPort) : Prop where
  trace : FiciCpu.instrs n.cpu = instrs
  traceDone : FiciCpu.traceDone n.cpu = true ↔ instrs.length ≤ FiciCpu.curip n.cpu
  requests : ∀ m, n.cpuInNext = some m ∨ n.cpuIn = some m → m.block ∈ blocks
  agents : ∀ b, (L.view (n.agents b)).want ≠ .nothing → b ∈ blocks

theorem Replays.initial (L : AgentLaws F) (blocks : Finset BlockId) (instrs : List Instruction) :
    Replays (F := F) L blocks instrs { cpu := FiciCpu.load instrs } where
  trace := rfl
  traceDone := by simp [FiciCpu.load]
  requests m here := by simp at here
  agents b wants := by simp [L.view_initial] at wants

omit L in
theorem receive_fields (c : FiciCpu) : c.receive.instrs = c.instrs ∧ c.receive.curip = c.curip ∧
    c.receive.traceDone = c.traceDone ∧ c.receive.cacheIn = none ∧ c.receive.cacheInNext = c.cacheInNext ∧
      (c.receive.outstanding = true → c.outstanding = true ∧ c.cacheIn = none) ∧
      (c.cacheIn = none → c.receive = c) := by
  unfold FiciCpu.receive
  split
  · next back =>
      refine ⟨rfl, rfl, rfl, rfl, rfl, fun no => ?_, fun empty => ?_⟩
      · cases no
      · rw [empty] at back
        cases back
  · next back =>
      have empty : c.cacheIn = none := by simpa using back
      exact ⟨rfl, rfl, rfl, empty, rfl, fun yes => ⟨yes, empty⟩, fun _ => rfl⟩

/-- A call keeps what is under way, or issues the next instruction. -/
theorem tick_cases (c : FiciCpu) (s : Settings) (i : NodeId) (slot : Option Message) :
    (c.tick s i slot).state = c.receive ∧ (c.tick s i slot).cpuInNext = slot ∧
        (c.traceDone = true ∨ c.receive.outstanding = true ∨ c.instrs.length ≤ c.curip) ∨
      ∃ x, c.instrs[c.curip]? = some x ∧ c.traceDone = false ∧ c.receive.outstanding = false ∧
        (c.tick s i slot).state =
          { c.receive with
            outstanding := true
            curip := c.curip + 1
            traceDone := c.curip + 1 == c.instrs.length } ∧
        (c.tick s i slot).cpuInNext = some (Message.make i i (x.block s) x.kind s) := by
  obtain ⟨instrs, curip, traceDone, -⟩ := receive_fields c
  unfold FiciCpu.tick
  simp only [instrs, curip, traceDone, Bool.or_eq_true]
  split
  · next busy => exact .inl ⟨rfl, rfl, by tauto⟩
  · next free =>
      split
      · next none => exact .inl ⟨rfl, rfl, .inr (.inr (List.getElem?_eq_none_iff.mp none))⟩
      · next x here => exact .inr ⟨x, here, by simpa using (not_or.mp free).1, by simpa using (not_or.mp free).2, rfl, rfl⟩

/-- The CPU's call takes its answer in and asks for the next block. -/
theorem Replays.portStep (replays : Replays L blocks instrs n) (here : At L n t)
    (inside : ∀ x ∈ instrs, x.block s ∈ blocks) :
    Replays L blocks instrs (n.portStep (n.called s i)) ∧ (n.portStep (n.called s i)).rank s ≤ n.rank s ∧
      (n.stage s = 1 ∨ n.stage s = 0 ∧ FiciCpu.traceDone n.cpu = false →
        (n.portStep (n.called s i)).rank s < n.rank s) := by
  obtain ⟨instrs', curip, traceDone, cacheIn, cacheInNext, outstanding, kept⟩ := receive_fields n.cpu
  have stage := here.stage (s := s)
  rcases tick_cases n.cpu s i n.cpuInNext with ⟨state, slot, waits⟩ | ⟨x, next, more, free, state, slot⟩
  · have cpu : (n.portStep (n.called s i)).cpu = FiciCpu.receive n.cpu := state
    have issued : (n.portStep (n.called s i)).cpuInNext = n.cpuInNext := slot
    have arrived : (n.portStep (n.called s i)).cpuIn = n.cpuIn := rfl
    have left : FiciCpu.left (n.portStep (n.called s i)).cpu = FiciCpu.left n.cpu := by
      simp only [cpu, FiciCpu.left, instrs', curip]
    have moved : (n.portStep (n.called s i)).stage s = n.stage s ∧ n.stage s ≠ 1 ∨
        (n.portStep (n.called s i)).stage s = 0 ∧ n.stage s = 1 := by
      by_cases back : FiciCpu.cacheIn n.cpu = none
      · left
        have same : (n.portStep (n.called s i)).stage s = n.stage s := by
          simp only [CpuNode.stage, cpu, issued, arrived, kept back]
        refine ⟨same, fun one => ?_⟩
        have held := here.cacheIn
        rw [stage] at one
        cases t with
        | returned m => cases back.symm.trans held
        | idle | issued m | arrived m | asked b | answered m =>
            simp only [Station.rank] at one
            omega
      · right
        have held := here.cacheIn
        cases t with
        | returned m =>
            refine ⟨?_, stage⟩
            have out : (FiciCpu.receive n.cpu).outstanding = false := by
              by_contra yes
              exact back (outstanding (by simpa using yes)).2
            have slots := here.cpuInNext
            have inside := here.cpuIn
            have answer := here.cacheInNext
            simp only [Station.cpuInNext, Station.cpuIn, Station.cacheInNext] at slots inside answer
            simp [CpuNode.stage, cpu, issued, arrived, slots, inside, cacheInNext, answer, cacheIn, out]
        | idle | issued m | arrived m | asked b | answered m => exact absurd held back
    refine ⟨⟨?_, ?_, ?_, replays.agents⟩, ?_, ?_⟩
    · rw [cpu, instrs', replays.trace]
    · rw [cpu, traceDone, curip]
      exact replays.traceDone
    · rw [issued]
      exact replays.requests
    · simp only [CpuNode.rank, left]
      omega
    · rintro (one | ⟨zero, more⟩)
      · simp only [CpuNode.rank, left]
        omega
      · exfalso
        have idle : t = .idle := by
          rw [stage] at zero
          cases t with
          | idle => rfl
          | issued m | arrived m | asked b | answered m | returned m =>
              simp only [Station.rank] at zero
              omega
        rcases waits with done | busy | short
        · cases more.symm.trans done
        · exact here.outstanding.mp (outstanding busy).1 idle
        · rw [replays.trace] at short
          cases more.symm.trans (replays.traceDone.mpr short)
  · have cpu : (n.portStep (n.called s i)).cpu = _ := state
    have issued : (n.portStep (n.called s i)).cpuInNext = _ := slot
    obtain ⟨below, -⟩ := List.getElem?_eq_some_iff.mp next
    have left : FiciCpu.left (n.portStep (n.called s i)).cpu + 1 = FiciCpu.left n.cpu := by
      simp only [cpu, FiciCpu.left, instrs']
      omega
    have lower : (n.portStep (n.called s i)).rank s < n.rank s := by
      have top : (n.portStep (n.called s i)).stage s = s.cost + 5 := by
        simp only [CpuNode.stage, issued, Option.isSome_some, if_true]
      rw [CpuNode.rank, CpuNode.rank, top, ← left, Nat.succ_mul, Settings.stretch]
      omega
    refine ⟨⟨?_, ?_, ?_, replays.agents⟩, Nat.le_of_lt lower, fun _ => lower⟩
    · rw [cpu]
      exact instrs'.trans replays.trace
    · rw [replays.trace] at below
      simp only [cpu, replays.trace, beq_iff_eq]
      omega
    · rintro m (new | old)
      · rw [issued] at new
        cases new
        refine inside x ?_
        rw [← replays.trace]
        exact List.mem_of_getElem? next
      · exact replays.requests m (.inr old)

/-- The request in `cpu_in` is one that its agent hands on to the directory. -/
def Asks (n : CpuNode F ficiPort) (b : BlockId) : Prop :=
  ∃ m a, n.cpuIn = some m ∧ m.block = b ∧ F.processProcRequest (n.agents b) m.kind = .ok a ∧ a.toProc = false

/-- The agent takes the request in. -/
theorem Replays.tickProc {n' : CpuNode F ficiPort} {st st' : CoherenceStats} (replays : Replays L blocks instrs n)
    (here : At L n t) (step : n.tickProc s i st = .ok (n', st')) :
    Replays L blocks instrs n' ∧
      (n' = n ∧ n.cpuIn = none ∨
        n'.rank s < n.rank s ∧ (∀ b, ¬Asks n b) ∨
        n'.rank s + s.cost < n.rank s ∧ ∃ m, n.cpuIn = some m ∧ ∀ b, Asks n b → b = m.block) := by
  unfold CpuNode.tickProc at step
  split at step
  · next empty =>
      cases step
      exact ⟨replays, .inl ⟨rfl, empty⟩⟩
  · next m arrived =>
      split at step
      · cases step
      · next a answer =>
          cases step
          have held := here.cpuIn
          rw [arrived] at held
          cases t with
          | idle | issued m | asked b | answered m | returned m => cases held
          | arrived m' =>
              cases held
              have before : n.rank s = FiciCpu.left n.cpu * s.stretch + (s.cost + 4) := here.rank
              have slots := here.cpuInNext
              have cacheInNext := here.cacheInNext
              have cacheIn := here.cacheIn
              simp only [Station.cpuInNext, Station.cacheInNext, Station.cacheIn] at slots cacheInNext cacheIn
              have known : m.block ∈ blocks := replays.requests m (.inr arrived)
              have agents : ∀ b, (L.view ((Function.update n.agents m.block a.state) b)).want ≠ .nothing → b ∈ blocks := by
                intro b wants
                by_cases same : b = m.block
                · rw [same]
                  exact known
                · rw [Function.update_of_ne same] at wants
                  exact replays.agents b wants
              have requests : ∀ m', n.cpuInNext = some m' ∨ none = some m' → m'.block ∈ blocks := by
                rintro m' (next | no)
                · exact replays.requests m' (.inl next)
                · cases no
              have asks : ∀ b, Asks n b → b = m.block ∧ a.toProc = false := by
                rintro b ⟨m', a', arrived', rfl, answer', toProc⟩
                cases arrived.symm.trans arrived'
                cases answer.symm.trans answer'
                exact ⟨rfl, toProc⟩
              obtain ⟨-, ⟨-, toProc, -, -⟩ | ⟨q, -, toProc, -, -⟩⟩ := L.proc _ _ _ answer
              · refine ⟨⟨?_, ?_, requests, agents⟩, .inr (.inl ⟨?_, fun b yes => ?_⟩)⟩
                · simpa [CpuNode.apply, toProc, ficiPort] using replays.trace
                · simpa [CpuNode.apply, toProc, ficiPort] using replays.traceDone
                · rw [before]
                  simp [CpuNode.rank, CpuNode.stage, CpuNode.apply, toProc, ficiPort, FiciCpu.left, slots]
                · cases toProc.symm.trans (asks b yes).2
              · refine ⟨⟨?_, ?_, requests, agents⟩, .inr (.inr ⟨?_, m, arrived, fun b yes => (asks b yes).1⟩)⟩
                · simpa [CpuNode.apply, toProc] using replays.trace
                · simpa [CpuNode.apply, toProc] using replays.traceDone
                · have out : FiciCpu.outstanding n.cpu = true := here.outstanding.mpr fun idle => by cases idle
                  have after : CpuNode.stage s { n.apply s i m.block a with cpuIn := none } = 3 := by
                    simp [CpuNode.stage, CpuNode.apply, toProc, slots, cacheInNext, cacheIn, out]
                  have left : FiciCpu.left (CpuNode.apply n s i m.block a).cpu = FiciCpu.left n.cpu := by
                    simp [CpuNode.apply, toProc]
                  rw [before, CpuNode.rank, after]
                  simp only [left]
                  omega

/-- The agent takes a message from the network in. -/
theorem Replays.tickNtwk {n' : CpuNode F ficiPort} {st st' : CoherenceStats} (replays : Replays L blocks instrs n)
    (here : At L n t) (step : n.tickNtwk s i st = .ok (n', st')) :
    Replays L blocks instrs n' ∧ n'.rank s ≤ n.rank s := by
  unfold CpuNode.tickNtwk at step
  split at step
  · cases step
    exact ⟨replays, Nat.le_refl _⟩
  · next m arrived =>
      split at step
      · cases step
      · next a answer =>
          cases step
          rcases L.ntwk _ _ _ answer with ⟨g, -, waits, -, toProc, view⟩ | ⟨toProc, spec⟩
          · have awaits := (here.agents m.block).mp waits
            have before : n.rank s = FiciCpu.left n.cpu * s.stretch + t.rank s := here.rank
            cases t with
            | idle | issued m | arrived m | answered m | returned m => exact awaits.elim
            | asked block =>
                have slots := here.cpuInNext
                have inside := here.cpuIn
                simp only [Station.cpuInNext, Station.cpuIn] at slots inside
                refine ⟨⟨?_, ?_, replays.requests, fun b wants => ?_⟩, ?_⟩
                · simpa [CpuNode.apply, toProc, ficiPort] using replays.trace
                · simpa [CpuNode.apply, toProc, ficiPort] using replays.traceDone
                · simp only [CpuNode.apply, Function.update_apply] at wants
                  split at wants
                  · next same =>
                      rw [same]
                      exact replays.agents _ waits
                  · exact replays.agents b wants
                · rw [before]
                  simp [CpuNode.rank, CpuNode.stage, CpuNode.apply, toProc, ficiPort, FiciCpu.left, slots, inside,
                    Station.rank]
          · have view : (L.view a.state).want = (L.view (n.agents m.block)).want := by
              rcases spec with ⟨-, -, -, view⟩ | ⟨-, -, -, view⟩ | ⟨-, -, -, -, view⟩ | ⟨-, -, -, -, view⟩ <;>
                rw [view]
            refine ⟨⟨?_, ?_, replays.requests, fun b wants => ?_⟩, ?_⟩
            · simpa [CpuNode.apply, toProc, ficiPort] using replays.trace
            · simpa [CpuNode.apply, toProc, ficiPort] using replays.traceDone
            · simp only [CpuNode.apply, Function.update_apply] at wants
              split at wants
              · next same =>
                  rw [same]
                  rw [view] at wants
                  exact replays.agents _ wants
              · exact replays.agents b wants
            · simp [CpuNode.rank, CpuNode.stage, CpuNode.apply, toProc, ficiPort]

theorem tock_fields (c : FiciCpu) : c.tock.instrs = c.instrs ∧ c.tock.curip = c.curip ∧
    c.tock.traceDone = c.traceDone ∧ c.tock.outstanding = c.outstanding ∧ c.tock.cacheInNext = none ∧
      c.tock.cacheIn = c.cacheInNext.or c.cacheIn := by
  unfold FiciCpu.tock
  cases here : c.cacheInNext <;> simp [here]

/-- The mailboxes move up. -/
theorem Replays.tock (replays : Replays L blocks instrs n) (here : At L n t) :
    Replays L blocks instrs n.tock ∧ n.tock.rank s ≤ n.rank s ∧
      (n.stage s = s.cost + 5 ∨ n.stage s = 2 → n.tock.rank s < n.rank s) := by
  obtain ⟨trace, curip, traceDone, outstanding, answered, returned⟩ := tock_fields n.cpu
  have cpu : n.tock.cpu = FiciCpu.tock n.cpu := rfl
  have arrived : n.tock.cpuIn = n.cpuInNext.or n.cpuIn := rfl
  have issued : n.tock.cpuInNext = none := rfl
  have left : FiciCpu.left n.tock.cpu = FiciCpu.left n.cpu := by
    simp only [cpu, FiciCpu.left, trace, curip]
  have moved : n.tock.stage s ≤ n.stage s ∧
      (n.stage s = s.cost + 5 ∨ n.stage s = 2 → n.tock.stage s < n.stage s) := by
    rw [here.stage]
    have out := here.outstanding
    simp only [CpuNode.stage, issued, arrived, cpu, outstanding, answered, returned, here.cpuInNext, here.cpuIn,
      here.cacheInNext, here.cacheIn]
    cases t with
    | idle => simp_all [Station.cpuInNext, Station.cpuIn, Station.cacheInNext, Station.cacheIn, Station.rank]
    | issued m | arrived m | asked b | answered m | returned m =>
        simp [Station.cpuInNext, Station.cpuIn, Station.cacheInNext, Station.cacheIn, Station.rank, out]
  refine ⟨⟨?_, ?_, ?_, replays.agents⟩, ?_, fun due => ?_⟩
  · rw [cpu, trace, replays.trace]
  · rw [cpu, traceDone, curip]
    exact replays.traceDone
  · rintro m (next | up)
    · rw [issued] at next
      cases next
    · rw [arrived] at up
      cases slot : n.cpuInNext with
      | none =>
          rw [slot, Option.none_or] at up
          exact replays.requests m (.inr up)
      | some m' =>
          rw [slot, Option.some_or] at up
          exact replays.requests m (.inl (slot.trans up))
  · simp only [CpuNode.rank, left]
    omega
  · have lower := moved.2 due
    simp only [CpuNode.rank, left]
    omega

/-- A whole tick: the CPU goes on, or asks for one block with more than its cost in hand. -/
theorem Replays.tick {n' : CpuNode F ficiPort} {st st' : CoherenceStats} (replays : Replays L blocks instrs n)
    (here : At L n t) (inside : ∀ x ∈ instrs, x.block s ∈ blocks) (step : n.tick s i st = .ok (n', st')) :
    Replays L blocks instrs n' ∧
      (n'.rank s ≤ n.rank s ∧ (∀ b, ¬Asks (n.portStep (n.called s i)) b) ∧
          (n.stage s = s.cost + 4 ∨ n.stage s = 1 ∨ n.stage s = 0 ∧ FiciCpu.traceDone n.cpu = false →
            n'.rank s < n.rank s) ∨
        n'.rank s + s.cost < n.rank s ∧
          ∃ c ∈ blocks, ∀ b, Asks (n.portStep (n.called s i)) b → b = c) := by
  obtain ⟨t₁, called⟩ := here.portStep s i
  obtain ⟨replays₁, le₁, less₁⟩ := replays.portStep here inside (i := i) (s := s)
  unfold CpuNode.tick at step
  simp only at step
  split at step
  · cases step
  · next n₂ st₂ proc =>
      change (n.portStep (n.called s i)).tickProc s i _ = _ at proc
      obtain ⟨x, answered, t₂, asked⟩ := called.tickProc s i (((n.called s i).stats) st)
      cases answered.symm.trans proc
      obtain ⟨replays₂, moved⟩ := replays₁.tickProc called proc
      obtain ⟨replays₃, le₃⟩ := replays₂.tickNtwk asked step
      refine ⟨replays₃, ?_⟩
      rcases moved with ⟨same, empty⟩ | ⟨less, none⟩ | ⟨less, m, arrived, one⟩
      · cases same
        refine .inl ⟨le₃.trans le₁, ?_, fun due => ?_⟩
        · rintro b ⟨m, a, arrived, -⟩
          cases empty.symm.trans arrived
        · refine le₃.trans_lt (less₁ (due.resolve_left fun top => ?_))
          rw [here.stage] at top
          have held : n.cpuIn = none := empty
          rw [here.cpuIn] at held
          cases t with
          | arrived m => cases held
          | idle | issued m | asked b | answered m | returned m =>
              simp only [Station.rank] at top
              omega
      · exact .inl ⟨le₃.trans (less.le.trans le₁), none, fun _ => (le₃.trans_lt less).trans_le le₁⟩
      · exact .inr ⟨by omega, m.block, replays₁.requests m (.inr arrived), one⟩

end

end Coherence
