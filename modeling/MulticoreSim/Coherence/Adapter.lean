import MulticoreSim.Coherence.System
import MulticoreSim.Memory.Cache

/-! # Full mode: a core's caches as a CPU port

The adapter between a core's L1 (and, with a private L2, its L2) and the agents
of its node, wired as `run_full_mode` does: the caches' bottom level has the
adapter as its sink. The core reaches the port through `Cache::issue`,
`Cache::complete` and `Cache::tick` only.
-/

namespace Coherence

open Memory

/-- `byte_addr (low bits cleared) -> block index`. -/
def toCacheBlock (s : Settings) (byteBlock : BlockId) : Nat := byteBlock >>> s.blockSizeLog2

/-- `block index -> byte address`. -/
def toByteBlock (s : Settings) (cacheBlock : Nat) : BlockId := shiftLeft64 cacheBlock s.blockSizeLog2

structure CoherenceAdapter where
  l1d : Cache
  /-- There is no L2 in `shared_lls` mode. -/
  l2d : Option Cache
  outboundProc : List Message := []
  pendingStores : BlockId → Bool := fun _ => false
  cacheInNext : Option Message := none

namespace CoherenceAdapter

/-- The wiring of `run_full_mode`. -/
def wire (s : Settings) (l1 l2 : Config) : CoherenceAdapter :=
  match s.cacheMode with
  | .sharedLls =>
      { l1d := Cache.build { l1 with coherenceSink := true }, l2d := none }
  | .privateL2 =>
      { l1d := Cache.build { l1 with coherenceSink := false }
        l2d := some (Cache.build { l2 with coherenceSink := true }) }

variable (s : Settings) (id : NodeId)

def onMiss (a : CoherenceAdapter) (blockAddr : Nat) (op : Op) : CoherenceAdapter :=
  let byteBlock := toByteBlock s blockAddr
  { a with
    pendingStores :=
      if op.isWrite then Function.update a.pendingStores byteBlock true else a.pendingStores
    outboundProc := a.outboundProc ++
      [Message.make id id byteBlock (if op.isWrite then .store else .load) s] }

/-- The notice of `on_evict`. -/
def evictNotice (blockAddr : Nat) (dirty : Bool) : Message :=
  { Message.make id s.numProcs (toByteBlock s blockAddr) .dataWb s with dirty }

/-- The sink calls of a cache, in order, with the notices they push. -/
def sink (a : CoherenceAdapter) : List SinkCall → CoherenceAdapter × List Message
  | [] => (a, [])
  | .onMiss blockAddr op :: rest => (a.onMiss s id blockAddr op).sink rest
  | .onEvict blockAddr dirty :: rest =>
      let (a, notices) := a.sink rest
      (a, evictNotice s id blockAddr dirty :: notices)

/-- What a call into the L1 leaves of the stack. -/
def settle (a : CoherenceAdapter) (r : Cache.Result .cache) : CoherenceAdapter × List Message :=
  { a with l1d := r.cache, l2d := r.below }.sink s id r.calls

/-- Drain one request into the agents' mailbox. -/
def drain (a : CoherenceAdapter) (cpuInNext : Option Message) : CoherenceAdapter × Option Message :=
  match cpuInNext, a.outboundProc with
  | none, m :: rest => ({ a with outboundProc := rest }, some m)
  | slot, _ => (a, slot)

/-- The fill of the L2. -/
def fillL2 (a : CoherenceAdapter) (cacheBlock : Nat) : CoherenceAdapter × List Message :=
  match a.l2d with
  | none => (a, [])
  | some l2 =>
      let r := l2.fill (β := .nothing) () cacheBlock false
      { a with l2d := some r.cache }.sink s id r.calls

/-- The fill of both levels, and the wake-up of the waiting requests. -/
def fill (a : CoherenceAdapter) (m : Message) : CoherenceAdapter × List Message :=
  let cacheBlock := toCacheBlock s m.block
  let wasStore := a.pendingStores m.block
  let a := { a with
    pendingStores := Function.update a.pendingStores m.block false
    cacheInNext := none }
  let (a, notices) := a.fillL2 s id cacheBlock
  let (a, notices') := a.settle s id (a.l1d.fill (β := .cache) a.l2d cacheBlock wasStore)
  ({ a with
      l1d := a.l1d.markBlockReady cacheBlock
      l2d := a.l2d.map (·.markBlockReady cacheBlock) },
    notices ++ notices')

def tick (a : CoherenceAdapter) (cpuInNext : Option Message) : PortStep CoherenceAdapter :=
  let (a, slot) := a.drain cpuInNext
  match a.cacheInNext with
  | none => { state := a, cpuInNext := slot }
  | some m =>
      let (a, notices) := a.fill s id m
      { state := a, cpuInNext := slot, sends := notices }

def onNtwkEvent (a : CoherenceAdapter) (req : Message) : CoherenceAdapter :=
  let cacheBlock := toCacheBlock s req.block
  match req.kind with
  | .reqInvalid | .recallGotoI =>
      { a with
        l1d := a.l1d.coherenceInvalidate cacheBlock
        l2d := a.l2d.map (·.coherenceInvalidate cacheBlock) }
  | .recallGotoS =>
      if req.dirty then a
      else
        { a with
          l1d := a.l1d.coherenceMark cacheBlock false
          l2d := a.l2d.map (·.coherenceMark cacheBlock false) }
  | _ => a

end CoherenceAdapter

/-- What a core does to its L1. -/
inductive CoreEvent where
  | issue (req : MemReq)
  | complete (id : Nat)
  | tick
  deriving DecidableEq, Repr

namespace CoherenceAdapter

def core (a : CoherenceAdapter) (s : Settings) (id : NodeId) (cpuInNext : Option Message) :
    CoreEvent → PortStep CoherenceAdapter
  | .issue req =>
      let (a, notices) := a.settle s id (a.l1d.issue (β := .cache) a.l2d req).1
      { state := a, cpuInNext, sends := notices }
  | .complete req => { state := { a with l1d := a.l1d.complete req }, cpuInNext }
  | .tick => { state := { a with l1d := a.l1d.tick }, cpuInNext }

end CoherenceAdapter

/-- The port of `run_full_mode`. -/
def adapterPort : CpuPort where
  State := CoherenceAdapter
  Event := CoreEvent
  tick s id a cpuInNext := a.tick s id cpuInNext
  tock a := a
  onNtwkEvent s a req := a.onNtwkEvent s req
  deposit a data := { a with cacheInNext := some data }
  external s id a cpuInNext event := some (a.core s id cpuInNext event)

/-- `run_full_mode` before the first cycle: every core has the same two cache
    configurations. -/
def fullMode (F : ProtocolFsm) (s : Settings) (l1 l2 : Config) : System F adapterPort :=
  System.initial F adapterPort s fun _ => CoherenceAdapter.wire s l1 l2

end Coherence
