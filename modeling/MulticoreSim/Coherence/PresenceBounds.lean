import MulticoreSim.Coherence.FirstMiss
import MulticoreSim.Coherence.PresenceSlots

/-! # How many CPUs the directory has room for

With more than `kMaxSharers` CPUs the first request of CPU `kMaxSharers` is out of
bounds, in either mode, unless the cores can issue nothing at all.
-/

namespace Coherence

open Memory

/-! ## A first request -/

/-- A first request touches its sender's slot. -/
theorem Protocol.first_slot (p : Protocol) (s : Settings) {e : DirEntry} (idle : e.state = .I)
    {r : Message} {a : AgentStep p.fsm.AgentState}
    (answer : p.fsm.processProcRequest p.fsm.initial .load = .ok a) (toDir : a.toDir = some r.kind) :
    r.src ∈ p.slots s e r := by
  cases p <;> cases answer <;> cases kind : r.kind <;> rw [kind] at toDir <;> cases toDir <;>
    simp [Protocol.slots, kind, miSlots, msiSlots, mesiSlots, mosiSlots, moesifSlots, idle]

section

variable {s : Settings} {π : CpuPort} {σ : System s.protocol.fsm π}

/-- The first load of a CPU beyond the array. -/
theorem Queued.overflows {st : π.State} {agents : BlockId → s.protocol.fsm.AgentState} {b : BlockId}
    {k : MessageKind} {a : AgentStep s.protocol.fsm.AgentState}
    (asked : Queued s σ kMaxSharers st agents (Message.make kMaxSharers s.numProcs b k s))
    (untouched : (σ.dir.directory b).state = .I)
    (answer : s.protocol.fsm.processProcRequest s.protocol.fsm.initial .load = .ok a)
    (toDir : a.toDir = some k) : ¬ InBounds s σ := by
  intro inBounds
  have taken : σ.TakesUp (Message.make kMaxSharers s.numProcs b k s) := by
    simp [System.TakesUp, asked.free, asked.queue]
  have slot := inBounds.slots _ taken kMaxSharers (s.protocol.first_slot s untouched answer toDir)
  exact absurd slot (Nat.lt_irrefl _)

end

/-- CPU `kMaxSharers` loads. -/
def lastLoads (i : NodeId) : List Instruction := if i = kMaxSharers then [⟨'r', 0⟩] else []

theorem coherenceMode_overflows {s : Settings} (many : kMaxSharers < s.numProcs) :
    ∃ σ, (System.machine s.protocol.fsm ficiPort s).Reachable
      (coherenceMode s.protocol.fsm s lastLoads) σ ∧ ¬ InBounds s σ := by
  have idle : Idle s (coherenceMode s.protocol.fsm s lastLoads) kMaxSharers := by
    constructor <;> rfl
  let first : Instruction := ⟨'r', 0⟩
  obtain ⟨a, k, answer, toDir, toProc, -⟩ := s.protocol.first_load
  obtain ⟨σ, reached, asked, same⟩ := idle.asks many
    (m := Message.make kMaxSharers kMaxSharers (first.block s) .load s) rfl rfl rfl rfl rfl rfl
    answer toDir toProc
  exact ⟨σ, reached, asked.overflows (by rw [same]; rfl) answer toDir⟩

theorem fullMode_overflows {s : Settings} (many : kMaxSharers < s.numProcs) (l1 l2 : Config)
    (room : 0 < l1.mshrEntries) :
    ∃ σ, (System.machine s.protocol.fsm adapterPort s).Reachable
      (fullMode s.protocol.fsm s l1 l2) σ ∧ ¬ InBounds s σ := by
  obtain ⟨a, k, answer, toDir, toProc, -⟩ := s.protocol.first_load
  obtain ⟨σ, st, agents, reached, asked, -, same, -⟩ :=
    fullMode_asks s l1 l2 room many 0 answer toDir toProc
  exact ⟨σ, reached, asked.overflows (by rw [same]; rfl) answer toDir⟩

/-! ## Both modes -/

/-- Presence slots exist and messages go to CPUs in every run of coherence mode exactly with at
    most `kMaxSharers` CPUs, and so in full mode, but for cores that can issue nothing. -/
theorem presence_in_bounds (s : Settings) :
    ((∀ traces σ, (System.machine s.protocol.fsm ficiPort s).Reachable
        (coherenceMode s.protocol.fsm s traces) σ → InBounds s σ) ↔ s.numProcs ≤ kMaxSharers) ∧
      ∀ l1 l2, (∀ σ, (System.machine s.protocol.fsm adapterPort s).Reachable
          (fullMode s.protocol.fsm s l1 l2) σ → InBounds s σ) ↔
        s.numProcs ≤ kMaxSharers ∨ l1.mshrEntries = 0 := by
  refine ⟨⟨fun all => ?_, fun small traces σ reached => inBounds_run fici_laws small reached⟩,
    fun l1 l2 => ⟨fun all => ?_, fun fine σ reached => ?_⟩⟩
  · by_contra many
    obtain ⟨σ, reached, outside⟩ := coherenceMode_overflows (Nat.not_le.mp many)
    exact outside (all _ σ reached)
  · by_contra bad
    obtain ⟨many, room⟩ := not_or.mp bad
    obtain ⟨σ, reached, outside⟩ :=
      fullMode_overflows (Nat.not_le.mp many) l1 l2 (Nat.pos_of_ne_zero room)
    exact outside (all σ reached)
  · rcases fine with small | none
    · exact inBounds_run adapter_laws small reached
    · have dormant := fullMode_dormant none reached
      refine ⟨fun r taken => ?_, fun m mem => ?_⟩
      · obtain ⟨-, head⟩ := taken
        rw [dormant.queue] at head
        cases head
      · rw [dormant.out] at mem
        cases mem

/-- Seventeen CPUs, the last of which loads. -/
theorem seventeen_out_of_bounds :
    ¬ ∀ σ, (System.machine mesi ficiPort { protocol := .MESI, numProcs := 17 }).Reachable
        (coherenceMode mesi { protocol := .MESI, numProcs := 17 } lastLoads) σ →
      InBounds { protocol := .MESI, numProcs := 17 } σ := by
  intro all
  obtain ⟨σ, reached, outside⟩ :=
    coherenceMode_overflows (s := { protocol := .MESI, numProcs := 17 }) (by decide)
  exact outside (all σ reached)

end Coherence
