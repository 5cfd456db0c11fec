import MulticoreSim.Coherence.Message

/-! # The directory controller

Directory entries, the last-level shared cache behind them, the two message
queues, and the response the directory may be waiting on. What a protocol does
with one message is an `Outcome`; the protocols themselves are in
`MulticoreSim.Coherence.DirectoryTick`.
-/

namespace Coherence

inductive DirState where
  | M | O | S | I | F | FS | FM | SM | MO | SS | MS | MM | OM | E | ES | EM | OO | EF | FF
  deriving DecidableEq, Repr

def kMaxSharers : Nat := 16

structure DirEntry where
  blockId : BlockId
  dirty : Bool := false
  presence : NodeId → Bool := fun _ => false
  state : DirState := .I
  activeSharers : Nat := 0
  reqNodeInTransient : NodeId := 0
  oFId : NodeId := 0
  invAckWaiting : Int := 0
  getMUpgrade : Bool := false

namespace DirEntry

/-- `presence[i] = true; ++active_sharers` on 32 bits. -/
def addPresence (e : DirEntry) (i : NodeId) : DirEntry :=
  { e with
    presence := Function.update e.presence i true
    activeSharers := (e.activeSharers + 1) % 2 ^ 32 }

/-- `presence[i] = false; --active_sharers` on 32 bits. -/
def dropPresence (e : DirEntry) (i : NodeId) : DirEntry :=
  { e with
    presence := Function.update e.presence i false
    activeSharers := (e.activeSharers + (2 ^ 32 - 1)) % 2 ^ 32 }

/-- `if (!presence[i])` around `addPresence`. -/
def ensurePresence (e : DirEntry) (i : NodeId) : DirEntry :=
  if e.presence i then e else e.addPresence i

/-- An evicting CPU drops out where it is known; the counter stops at zero. -/
def forget (e : DirEntry) (i : NodeId) : DirEntry :=
  if e.presence i then
    { e with
      presence := Function.update e.presence i false
      activeSharers := if 0 < e.activeSharers then e.activeSharers - 1 else e.activeSharers }
  else e

/-- The `target_node` loop: the last present CPU, from `NodeId(-1)`. -/
def lastPresent (e : DirEntry) (numProcs : Nat) : NodeId :=
  (List.range numProcs).foldl (fun target i => if e.presence i then i else target) noNode

/-- The loop with a `break`: the first present slot. -/
def firstPresent (e : DirEntry) : Option NodeId :=
  (List.range kMaxSharers).find? e.presence

/-- The present CPUs below `bound` that `keep` lets through, in loop order. -/
def presentExcept (e : DirEntry) (bound : Nat) (keep : NodeId → Bool) : List NodeId :=
  (List.range bound).filter fun i => e.presence i && keep i

end DirEntry

/-! ## The last-level shared cache -/

structure LlsLookup where
  hit : Bool := false
  evicted : Bool := false
  victim : BlockId := 0
  deriving DecidableEq, Repr

/-- Each set lists its blocks from most to least recently used. -/
structure LlsCache where
  assoc : Nat
  numSets : Nat
  sets : Nat → List BlockId := fun _ => []

namespace LlsCache

/-- The constructor without its check. A cache of no blocks or no ways is disabled. -/
def build (sizeBlocks assoc : Nat) : LlsCache :=
  if sizeBlocks = 0 ∨ assoc = 0 then { assoc := 0, numSets := 0 }
  else { assoc, numSets := sizeBlocks / assoc }

def make (sizeBlocks assoc : Nat) : Except String LlsCache :=
  if sizeBlocks ≠ 0 ∧ assoc ≠ 0 ∧ sizeBlocks % assoc ≠ 0 then
    .error ("LlsCache: size_blocks (" ++ toString sizeBlocks ++ ") must be divisible by assoc (" ++
      toString assoc ++ ")")
  else .ok (build sizeBlocks assoc)

theorem make_ok {sizeBlocks assoc : Nat} {c : LlsCache} (made : make sizeBlocks assoc = .ok c)
    (some : 0 < sizeBlocks) (ways : 0 < assoc) :
    assoc ∣ sizeBlocks ∧ c = { assoc, numSets := sizeBlocks / assoc } := by
  unfold make at made
  split at made
  · cases made
  · next whole =>
      cases made
      have blocks : sizeBlocks ≠ 0 := Nat.ne_of_gt some
      have wide : assoc ≠ 0 := Nat.ne_of_gt ways
      refine ⟨Nat.dvd_of_mod_eq_zero (by_contra fun rest => whole ⟨blocks, wide, rest⟩), ?_⟩
      simp only [build, blocks, wide, or_self, if_false]

def access (c : LlsCache) (block : BlockId) : LlsCache × LlsLookup :=
  if c.numSets = 0 then (c, {})
  else
    let index := block % c.numSets
    let set := c.sets index
    if block ∈ set then
      ({ c with sets := Function.update c.sets index (block :: set.erase block) }, { hit := true })
    else if c.assoc ≤ set.length then
      ({ c with sets := Function.update c.sets index (block :: set.dropLast) },
        { evicted := true, victim := set.getLast?.getD 0 })
    else
      ({ c with sets := Function.update c.sets index (block :: set) }, {})

end LlsCache

/-! ## What a message leads to -/

/-- One `send_Request`. -/
structure Send where
  dest : NodeId
  tag : BlockId
  kind : MessageKind
  dirty : Bool := false
  deriving DecidableEq, Repr

/-- What a protocol does with the message at the head of the queue. The branches
    also write `tag_to_send` and `target_node` as scratch; `schedule_data_response`
    sets both again before they are next read. -/
structure Outcome where
  entry : DirEntry
  sends : List Send := []
  /-- `schedule_data_response(block, target)`. -/
  schedule : Option (BlockId × NodeId) := none
  /-- `send_E = true`. -/
  sendE : Bool := false
  /-- `cycle_queue` in place of `dequeue`. -/
  cycled : Bool := false
  stats : CoherenceStats → CoherenceStats := id

def Outcome.cycle (e : DirEntry) : Outcome := { entry := e, cycled := true }

/-- What `handle_writeback` makes of an entry in a stable state. -/
def DirEntry.writeback (entry : DirEntry) (request : Message) : DirEntry :=
  let wasDirtyHolder :=
    (entry.state = .M ∨ entry.state = .O ∨ entry.state = .F) ∧
      entry.presence request.src ∧ request.src = entry.oFId
  let wasMHolder := entry.state = .M ∧ entry.presence request.src
  let dropped := entry.forget request.src
  let cleaned := { dropped with dirty := if request.dirty then false else dropped.dirty }
  if cleaned.activeSharers = 0 then { cleaned with state := .I, dirty := false }
  else if wasMHolder ∨ wasDirtyHolder then { cleaned with state := .S, oFId := noNode }
  else cleaned

/-- `handle_writeback`; `none` where it returns false. -/
def handleWriteback (entry : DirEntry) (request : Message) : Option Outcome :=
  if request.kind ≠ .dataWb then none
  else match entry.state with
    | .I | .S | .E | .M | .O | .F =>
        some
          { entry := entry.writeback request
            stats := fun st =>
              if request.dirty then { st with memoryWrites := st.memoryWrites + 1 } else st }
    | _ => some (.cycle entry)

/-! ## The controller -/

structure DirectoryController where
  requestNext : List Message := []
  requestQueue : List Message := []
  sendE : Bool := false
  tagToSend : BlockId := 0
  targetNode : NodeId := 0
  requestInProgress : Bool := false
  responseTime : Timestamp := 0
  pendingLlsMiss : Bool := false
  lls : LlsCache
  currentClock : Timestamp := 0
  /-- `get_entry`: an entry is made on first use. -/
  directory : BlockId → DirEntry := fun block => { blockId := block }
  /-- `my_node->ntwk_out_next`. -/
  ntwkOutNext : List Message := []

namespace DirectoryController

/-- For settings whose shared cache `LlsCache.make` builds. -/
def make (s : Settings) : DirectoryController :=
  { lls := match s.cacheMode with
      | .sharedLls => LlsCache.build s.llsBlocks s.llsAssoc
      | .privateL2 => LlsCache.build 0 0 }

/-- `send_Request`. -/
def request (s : Settings) (x : Send) : Message :=
  { Message.make s.numProcs x.dest x.tag x.kind s with dirty := x.dirty }

def sendRequest (d : DirectoryController) (s : Settings) (x : Send) : DirectoryController :=
  { d with ntwkOutNext := d.ntwkOutNext ++ [request s x] }

/-- The latch of `schedule_data_response`. -/
def latch (d : DirectoryController) (block : BlockId) (target : NodeId) (delay : Nat) (miss : Bool) :
    DirectoryController :=
  { d with
    requestInProgress := true
    targetNode := target
    tagToSend := block
    responseTime := d.currentClock + delay
    pendingLlsMiss := miss }

def scheduleDataResponse (d : DirectoryController) (s : Settings) (st : CoherenceStats)
    (block : BlockId) (target : NodeId) : DirectoryController × CoherenceStats :=
  match s.cacheMode with
  | .privateL2 => (d.latch block target s.memLatency true, st)
  | .sharedLls =>
      let (lls, r) := d.lls.access block
      let d := { d with lls }
      let st := { st with llsAccesses := st.llsAccesses + 1 }
      if r.hit then
        (d.latch block target s.llsHitLatency false, { st with llsHits := st.llsHits + 1 })
      else
        (d.latch block target s.memLatency true,
          { st with
            llsMisses := st.llsMisses + 1
            llsEvictions := if r.evicted then st.llsEvictions + 1 else st.llsEvictions })

/-- Carry an outcome out: the message was at the head of the queue. -/
def carryOut (d : DirectoryController) (s : Settings) (st : CoherenceStats) (request : Message)
    (rest : List Message) (o : Outcome) : DirectoryController × CoherenceStats :=
  let d :=
    { d with
      directory := Function.update d.directory request.block o.entry
      requestQueue := rest
      requestNext := if o.cycled then d.requestNext ++ [request] else d.requestNext
      ntwkOutNext := d.ntwkOutNext ++ o.sends.map (DirectoryController.request s)
      sendE := d.sendE || o.sendE }
  let st := o.stats st
  match o.schedule with
  | none => (d, st)
  | some (block, target) => d.scheduleDataResponse s st block target

/-- The second half of every `*_tick`: memory or the shared cache answers.
    `usesE` is set for the protocols that look at `send_E`. -/
def respond (d : DirectoryController) (s : Settings) (usesE : Bool) (st : CoherenceStats) :
    DirectoryController × CoherenceStats :=
  if d.requestInProgress ∧ d.responseTime ≤ d.currentClock then
    let st := if d.pendingLlsMiss then { st with memoryReads := st.memoryReads + 1 } else st
    if usesE ∧ d.sendE then
      ({ d.sendRequest s { dest := d.targetNode, tag := d.tagToSend, kind := .dataE } with
          sendE := false, requestInProgress := false }, st)
    else
      ({ d.sendRequest s { dest := d.targetNode, tag := d.tagToSend, kind := .data } with
          requestInProgress := false }, st)
  else (d, st)

/-- `tock`. -/
def tock (d : DirectoryController) : DirectoryController :=
  { d with requestQueue := d.requestQueue ++ d.requestNext, requestNext := [] }

end DirectoryController

end Coherence
