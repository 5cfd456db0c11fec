import MulticoreSim.Memory.Mshr
import Mathlib.Logic.Function.Basic

/-! # One cache level

Sets of lines in recency order, the two write policies, and the asynchronous
path through the MSHR table. A cache reaches what is below it through `Below`,
so that one definition serves every level; calls to a coherence sink are listed
in the order they are made.
-/

namespace Memory

inductive Replacement where
  | lruMip | lruLip
  deriving DecidableEq, Repr

inductive WritePolicy where
  | wbwa | wtwna
  deriving DecidableEq, Repr

structure CacheStats where
  accesses : Nat := 0
  reads : Nat := 0
  writes : Nat := 0
  hits : Nat := 0
  misses : Nat := 0
  writebacks : Nat := 0
  readHits : Nat := 0
  readMisses : Nat := 0
  prefetchesIssued : Nat := 0
  prefetchHits : Nat := 0
  prefetchMisses : Nat := 0
  coherenceInvals : Nat := 0
  upgradeMisses : Nat := 0
  deriving DecidableEq, Repr

/-- `tag_meta_t`. -/
structure TagMeta where
  blockAddr : Nat
  tag : Nat
  dirty : Bool := false
  valid : Bool := false
  prefetched : Bool := false
  deriving DecidableEq, Repr

/-- Log2 capacity `c`, log2 block `b` and log2 ways `s`. -/
structure Config where
  c : Nat := 10
  b : Nat := 6
  s : Nat := 1
  replacement : Replacement := .lruMip
  writePolicy : WritePolicy := .wbwa
  hitLatency : Nat := 2
  mshrEntries : Nat := 8
  /-- A `coherence_sink` is wired. -/
  coherenceSink : Bool := false
  deriving DecidableEq, Repr

/-- One call of a `CoherenceSink`. -/
inductive SinkCall where
  | onMiss (blockAddr : Nat) (op : Op)
  | onEvict (blockAddr : Nat) (dirty : Bool)
  deriving DecidableEq, Repr

structure Cache where
  cfg : Config
  stats : CacheStats := {}
  /-- Each set from most to least recently used. -/
  rows : Nat → List TagMeta := fun _ => []
  mshr : MSHR
  now : Nat := 0
  /-- Of 64 bits: `Custody.ids_fit` says for how many requests it does not wrap. -/
  nextId : Nat := 1

/-- What a level has below it. -/
structure Below where
  State : Type
  /-- `none` where there is neither a next level nor a main memory. The flag says
      that the answer is the suspended sentinel of a cache. -/
  access : State → MemReq → Option (State × AccessResult × Bool × List SinkCall)

/-- The end of a coherent core's own hierarchy. -/
def Below.nothing : Below := ⟨Unit, fun _ _ => none⟩

/-- `x << n` on 64 bits. -/
def shiftLeft64 (x n : Nat) : Nat := (x <<< n) % 2 ^ 64

namespace Cache

/-- The constructor, past its check of the geometry. -/
def build (cfg : Config) : Cache := { cfg, mshr := MSHR.make cfg.mshrEntries }

def make (cfg : Config) : Except String Cache :=
  if cfg.c ≤ cfg.b + cfg.s then .error "cache geometry: require c > b + s (sets >= 1)"
  else .ok (build cfg)

def assoc (c : Cache) : Nat := 1 <<< c.cfg.s

def indexBit (c : Cache) : Nat := c.cfg.c - c.cfg.b - c.cfg.s

def getTag (c : Cache) (blockAddr : Nat) : Nat := blockAddr >>> c.indexBit

def getIndex (c : Cache) (blockAddr : Nat) : Nat := blockAddr &&& ((1 <<< c.indexBit) - 1)

def getBlockAddr (c : Cache) (addr : Nat) : Nat := addr >>> c.cfg.b

/-- The set a block maps to. -/
def set (c : Cache) (blockAddr : Nat) : List TagMeta := c.rows (c.getIndex blockAddr)

def setRow (c : Cache) (blockAddr : Nat) (row : List TagMeta) : Cache :=
  { c with rows := Function.update c.rows (c.getIndex blockAddr) row }

/-- The scans look for a valid line with the block's tag. -/
def isLine (c : Cache) (blockAddr : Nat) (line : TagMeta) : Bool :=
  line.tag == c.getTag blockAddr && line.valid

def isInCache (c : Cache) (blockAddr : Nat) : Bool := (c.set blockAddr).any (c.isLine blockAddr)

def blockIn (c : Cache) (byteAddr : Nat) : Bool := c.isInCache (c.getBlockAddr byteAddr)

/-- Splice the block's line to the front, rewritten. -/
def promote (c : Cache) (blockAddr : Nat) (f : TagMeta → TagMeta) : Cache :=
  match (c.set blockAddr).find? (c.isLine blockAddr) with
  | none => c
  | some line => c.setRow blockAddr (f line :: (c.set blockAddr).eraseP (c.isLine blockAddr))

def bump (c : Cache) (f : CacheStats → CacheStats) : Cache := { c with stats := f c.stats }

/-- A fresh line at the end the replacement policy inserts at. -/
def place (c : Cache) (blockAddr : Nat) (line : TagMeta) : Cache :=
  c.setRow blockAddr <|
    match c.cfg.replacement with
    | .lruLip => c.set blockAddr ++ [line]
    | .lruMip => line :: c.set blockAddr

variable (β : Below)

/-- A cache over what is below it, after a call. -/
structure Result where
  cache : Cache
  below : β.State
  calls : List SinkCall := []

variable {β}

/-- The WBWA eviction: the sink is told, or a dirty line goes down. -/
def evictLru (c : Cache) (below : β.State) (blockAddr : Nat) : Result β :=
  match (c.set blockAddr).getLast? with
  | none => { cache := c, below }
  | some victim =>
      let popped := c.setRow blockAddr (c.set blockAddr).dropLast
      let counted :=
        if victim.dirty then popped.bump fun st => { st with writebacks := st.writebacks + 1 }
        else popped
      if c.cfg.coherenceSink then
        { cache := counted, below, calls := [.onEvict victim.blockAddr victim.dirty] }
      else if victim.dirty then
        match β.access below { addr := shiftLeft64 victim.blockAddr c.cfg.b, op := .write } with
        | none => { cache := counted, below }
        | some (below, _, _, calls) => { cache := counted, below, calls }
      else { cache := counted, below }

/-- The WTWNA eviction is silent. -/
def dropLru (c : Cache) (blockAddr : Nat) : Cache :=
  let popped := c.setRow blockAddr (c.set blockAddr).dropLast
  match (c.set blockAddr).getLast? with
  | some victim =>
      if victim.prefetched then
        popped.bump fun st => { st with prefetchMisses := st.prefetchMisses + 1 }
      else popped
  | none => popped

def insertNewBlock (c : Cache) (below : β.State) (write : Bool) (blockAddr : Nat)
    (isPrefetch : Bool) : Result β :=
  let line : TagMeta :=
    { blockAddr, tag := c.getTag blockAddr, valid := true, prefetched := isPrefetch }
  match c.cfg.writePolicy with
  | .wbwa =>
      let r : Result β :=
        if (c.set blockAddr).length = c.assoc then c.evictLru below blockAddr
        else { cache := c, below }
      { r with cache := r.cache.place blockAddr { line with dirty := write } }
  | .wtwna =>
      let c := if (c.set blockAddr).length = c.assoc then c.dropLru blockAddr else c
      { cache := c.place blockAddr line, below }

/-- A miss: ask below, or the sink, and fill unless the answer is still to come. -/
def fetch (c : Cache) (below : β.State) (req : MemReq) (write : Bool) (originatingOp : Op) :
    Result β × AccessResult :=
  let blockAddr := c.getBlockAddr req.addr
  let down : MemReq :=
    { addr := shiftLeft64 blockAddr c.cfg.b, pc := req.pc, originatingOp, tid := req.tid }
  let filled (below : β.State) (latency : Nat) (calls : List SinkCall) :
      Result β × AccessResult :=
    let r := c.insertNewBlock below write blockAddr false
    ({ r with calls := calls ++ r.calls },
      { hit := false, latency := (c.cfg.hitLatency + latency) % 2 ^ 32 })
  match β.access below down with
  | some (below, sub, suspended, calls) =>
      if suspended then
        ({ cache := c, below, calls }, { hit := false, latency := coherenceSuspendedLatency })
      else filled below sub.latency calls
  | none =>
      if c.cfg.coherenceSink then
        ({ cache := c, below, calls := [.onMiss blockAddr req.originatingOp] },
          { hit := false, latency := coherenceSuspendedLatency })
      else filled below 0 []

/-- The WBWA half of `access`. -/
def accessWbwa (c : Cache) (below : β.State) (req : MemReq) : Result β × AccessResult :=
  let blockAddr := c.getBlockAddr req.addr
  match (c.set blockAddr).find? (c.isLine blockAddr) with
  | some line =>
      if req.op.isWrite ∧ line.dirty = false ∧ c.cfg.coherenceSink then
        -- The line stays clean until the adapter has the agent's permission.
        let c := (c.promote blockAddr id).bump fun st =>
          { st with upgradeMisses := st.upgradeMisses + 1 }
        ({ cache := c, below, calls := [.onMiss blockAddr .write] },
          { hit := false, latency := coherenceSuspendedLatency })
      else
        let c := c.bump fun st =>
          { st with
            hits := st.hits + 1
            prefetchHits := if line.prefetched then st.prefetchHits + 1 else st.prefetchHits }
        let touched (l : TagMeta) : TagMeta :=
          { l with prefetched := false, dirty := l.dirty || req.op.isWrite }
        ({ cache := c.promote blockAddr touched, below },
          { hit := true, latency := c.cfg.hitLatency % 2 ^ 32 })
  | none =>
      let c := c.bump fun st => { st with misses := st.misses + 1 }
      c.fetch below req req.op.isWrite req.op

/-- The WTWNA half of `access`: a write goes no further than this level. -/
def accessWtwna (c : Cache) (below : β.State) (req : MemReq) : Result β × AccessResult :=
  let blockAddr := c.getBlockAddr req.addr
  if req.op.isWrite then
    ({ cache := c.promote blockAddr id, below },
      { hit := c.isInCache blockAddr, latency := c.cfg.hitLatency })
  else
    match (c.set blockAddr).find? (c.isLine blockAddr) with
    | some line =>
        let c := c.bump fun st =>
          { st with
            readHits := st.readHits + 1
            prefetchHits := if line.prefetched then st.prefetchHits + 1 else st.prefetchHits }
        ({ cache := c.promote blockAddr fun l => { l with prefetched := false }, below },
          { hit := true, latency := c.cfg.hitLatency % 2 ^ 32 })
    | none =>
        let c := c.bump fun st => { st with readMisses := st.readMisses + 1 }
        c.fetch below req false .read

def access (c : Cache) (below : β.State) (req : MemReq) : Result β × AccessResult :=
  let c := c.bump fun st =>
    { st with
      accesses := st.accesses + 1
      reads := if req.op.isWrite then st.reads else st.reads + 1
      writes := if req.op.isWrite then st.writes + 1 else st.writes }
  match c.cfg.writePolicy with
  | .wbwa => c.accessWbwa below req
  | .wtwna => c.accessWtwna below req

/-- `UINT64_MAX`. -/
def never : Nat := 2 ^ 64 - 1

/-- `issue`, with the new request's id; `none` where the table is full. -/
def issue (c : Cache) (below : β.State) (req : MemReq) : Result β × Option Nat :=
  let blockAddr := c.getBlockAddr req.addr
  let allocated (r : Result β) (dueCycle : Nat) (result : AccessResult) : Result β × Option Nat :=
    let id := r.cache.nextId
    let mshr := (r.cache.mshr.allocate id blockAddr req.op req.pc dueCycle result).getD r.cache.mshr
    ({ r with cache := { r.cache with mshr, nextId := id + 1 } }, some id)
  match c.mshr.table.find? fun e => req.op ≠ .write && e.targets blockAddr with
  | some e => allocated { cache := c, below } e.dueCycle e.result
  | none =>
      if c.mshr.full then ({ cache := c, below }, none)
      else
        let (r, result) := c.access below req
        let due :=
          if result.latency = coherenceSuspendedLatency then never
          else (r.cache.now + result.latency) % 2 ^ 64
        allocated r due result

def peek (c : Cache) (id : Nat) : Option MSHREntry := c.mshr.find id

def complete (c : Cache) (id : Nat) : Cache := { c with mshr := c.mshr.release id }

def tick (c : Cache) : Cache := { c with now := c.now + 1, mshr := c.mshr.tick (c.now + 1) }

/-! ## Coherence -/

def coherenceInvalidate (c : Cache) (blockAddr : Nat) : Cache :=
  if c.isInCache blockAddr then
    (c.setRow blockAddr ((c.set blockAddr).eraseP (c.isLine blockAddr))).bump fun st =>
      { st with coherenceInvals := st.coherenceInvals + 1 }
  else c

/-- `coherence_set_dirty` and `coherence_clean`. -/
def coherenceMark (c : Cache) (blockAddr : Nat) (dirty : Bool) : Cache :=
  c.setRow blockAddr (modifyFirst (c.isLine blockAddr) (fun l => { l with dirty }) (c.set blockAddr))

def markBlockReady (c : Cache) (blockAddr : Nat) : Cache :=
  { c with mshr := c.mshr.markBlockReady blockAddr }

/-- `cache_fill`. -/
def fill (c : Cache) (below : β.State) (blockAddr : Nat) (write : Bool) : Result β :=
  if c.blockIn (shiftLeft64 blockAddr c.cfg.b) then
    { cache := if write then c.coherenceMark blockAddr true else c, below }
  else c.insertNewBlock below write blockAddr false

end Cache

/-- A next level that may be missing. -/
def Below.cache : Below where
  State := Option Cache
  access := fun c req =>
    c.map fun c =>
      let (r, result) := c.access (β := .nothing) () req
      (some r.cache, result, result.latency = coherenceSuspendedLatency, r.calls)

structure MainMemory where
  latency : Nat := 100
  stats : CacheStats := {}

/-- `MainMemory::access`. -/
def MainMemory.access (m : MainMemory) (req : MemReq) : MainMemory × AccessResult :=
  ({ m with stats := { m.stats with
      accesses := m.stats.accesses + 1
      hits := m.stats.hits + 1
      reads := if req.op.isWrite then m.stats.reads else m.stats.reads + 1
      writes := if req.op.isWrite then m.stats.writes + 1 else m.stats.writes } },
    { hit := true, latency := m.latency })

/-- The main memory, which never suspends. -/
def Below.memory : Below where
  State := MainMemory
  access := fun m req => some ((m.access req).1, (m.access req).2, false, [])

end Memory
