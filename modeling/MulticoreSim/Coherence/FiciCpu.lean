import MulticoreSim.Coherence.Runs

/-! # Coherence mode: a trace-driven CPU

A `FiciCpu` replays one trace, one request at a time: it issues the next
instruction once the answer to the last one has come back.
-/

namespace Coherence

/-- One trace line, `r` or `w` and an address. -/
structure Instruction where
  action : Char
  address : Nat
  deriving DecidableEq, Repr

structure FiciCpu where
  instrs : List Instruction
  curip : Nat := 0
  outstanding : Bool := false
  traceDone : Bool
  cacheIn : Option Message := none
  cacheInNext : Option Message := none

/-- `inst.address & ~((1 << block_size_log2) - 1)` on 64 bits. -/
def Instruction.block (inst : Instruction) (s : Settings) : BlockId :=
  inst.address &&& (2 ^ 64 - 1 - ((1 <<< s.blockSizeLog2) - 1))

def Instruction.kind (inst : Instruction) : MessageKind :=
  if inst.action = 'r' then .load else .store

namespace FiciCpu

/-- The constructor, past `load_proj3_trace`. -/
def load (instrs : List Instruction) : FiciCpu := { instrs, traceDone := instrs.isEmpty }

/-- The answer in `cache_in` is taken. -/
def receive (c : FiciCpu) : FiciCpu :=
  if c.cacheIn.isSome then { c with cacheIn := none, outstanding := false } else c

def tick (c : FiciCpu) (s : Settings) (id : NodeId) (cpuInNext : Option Message) :
    PortStep FiciCpu :=
  let c := c.receive
  if c.traceDone || c.outstanding then { state := c, cpuInNext }
  else match c.instrs[c.curip]? with
    | none => { state := c, cpuInNext }
    | some inst =>
        { state :=
            { c with
              outstanding := true
              curip := c.curip + 1
              traceDone := c.curip + 1 == c.instrs.length }
          cpuInNext := some (Message.make id id (inst.block s) inst.kind s)
          stats := fun st => { st with cacheAccesses := st.cacheAccesses + 1 } }

/-- `is_done`. -/
def isDone (c : FiciCpu) : Bool := c.traceDone && !c.outstanding

def tock (c : FiciCpu) : FiciCpu :=
  if c.cacheInNext.isSome then { c with cacheIn := c.cacheInNext, cacheInNext := none } else c

end FiciCpu

/-- The port of `run_coherence_mode`. Nothing but the node's clock moves it. -/
def ficiPort : CpuPort where
  State := FiciCpu
  Event := Empty
  tick s id c cpuInNext := c.tick s id cpuInNext
  tock := FiciCpu.tock
  onNtwkEvent _ c _ := c
  deposit c data := { c with cacheInNext := some data }
  external _ _ _ _ event := event.elim

/-- `run_coherence_mode` before the first cycle. -/
def coherenceMode (F : ProtocolFsm) (s : Settings) (traces : NodeId → List Instruction) :
    System F ficiPort :=
  System.initial F ficiPort s fun i => FiciCpu.load (traces i)

theorem FiciCpu.tick_sends (c : FiciCpu) (s : Settings) (i : NodeId) (slot : Option Message) :
    (c.tick s i slot).sends = [] := by
  unfold FiciCpu.tick
  simp only
  split
  · rfl
  · split <;> rfl

/-- A trace-driven CPU sends nothing of its own. -/
theorem fici_laws : PortLaws ficiPort fun _ _ => False where
  tick_sends s i st c m mem := by
    have none : (ficiPort.tick s i st c).sends = [] := FiciCpu.tick_sends st s i c
    rw [none] at mem
    cases mem
  external_sends _ _ _ _ e := e.elim
  tock _ _ := id
  deposit _ _ _ := .inl
  event _ _ _ _ := id

end Coherence
