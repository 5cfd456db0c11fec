import MulticoreSim.Memory.Cache

/-! # Prefetchers

The prefetchers of a cache level, and a level that asks its own after a miss.
-/

namespace Memory

/-! ## The Markov table -/

/-- `markov_t`. -/
structure MarkovEntry where
  destinationBAddr : Nat
  numAccess : Nat
  deriving DecidableEq, Repr

structure MarkovRow where
  sourceBAddr : Nat
  mkvRow : List MarkovEntry
  deriving DecidableEq, Repr

structure Markov where
  /-- The most recent row first. -/
  mkvCol : List MarkovRow := []
  prevBlock : Nat := 0
  pfFirstBlock : Bool := true
  maxMkvRows : Nat
  deriving DecidableEq, Repr

namespace Markov

/-- The order of a row: accesses, then destinations, both falling. -/
def before (x y : MarkovEntry) : Bool :=
  x.numAccess > y.numAccess || x.numAccess = y.numAccess && x.destinationBAddr > y.destinationBAddr

/-- The first of the entries that none is before. -/
def best (x : MarkovEntry) (rest : List MarkovEntry) : MarkovEntry :=
  rest.foldl (fun best y => if before y best then y else best) x

/-- `markov_row_sort`. The scan goes on past the entry that the best was put before. -/
def markovRowSort : List MarkovEntry → List MarkovEntry
  | [] => []
  | x :: rest =>
      if best x rest = x then x :: markovRowSort rest
      else best x rest :: x :: markovRowSort (rest.erase (best x rest))
termination_by row => row.length
decreasing_by
  · exact Nat.lt_succ_self _
  · exact Nat.lt_succ_of_le List.length_erase_le

/-- `get_MFU_block_addr`, of a row with entries. -/
def getMfuBlockAddr : List MarkovEntry → Nat
  | [] => 0
  | x :: rest => (best x rest).destinationBAddr

/-- `is_dest_in_MRK_row`: `none` where it is not. -/
def isDestInMrkRow (row : List MarkovEntry) (missed : Nat) : Option (List MarkovEntry) :=
  if row.any (·.destinationBAddr = missed) then
    some <| markovRowSort <| modifyFirst (·.destinationBAddr = missed)
      (fun e => { e with numAccess := e.numAccess + 1 }) row
  else none

/-- The entry to evict: the fewest accesses, then the smallest destination. -/
def lfu : List MarkovEntry → Option MarkovEntry
  | [] => none
  | x :: rest =>
      some <| rest.foldl (fun worst y =>
        if y.numAccess < worst.numAccess ||
          y.numAccess = worst.numAccess && y.destinationBAddr < worst.destinationBAddr
        then y else worst) x

def addNewEntry (row : List MarkovEntry) (missed : Nat) : List MarkovEntry :=
  let kept :=
    if row.length = 4 then
      match lfu row with
      | some victim => row.erase victim
      | none => row
    else row
  markovRowSort ({ destinationBAddr := missed, numAccess := 1 } :: kept)

def addNewRow (m : Markov) (missed : Nat) : Markov :=
  if m.maxMkvRows = 0 then m
  else
    let kept := if m.mkvCol.length = m.maxMkvRows then m.mkvCol.dropLast else m.mkvCol
    { m with mkvCol := { sourceBAddr := m.prevBlock, mkvRow := addNewEntry [] missed } :: kept }

def learn (m : Markov) (missed : Nat) : Markov :=
  match m.mkvCol.find? (·.sourceBAddr = m.prevBlock) with
  | some row =>
      let mkvRow := (isDestInMrkRow row.mkvRow missed).getD (addNewEntry row.mkvRow missed)
      { m with mkvCol := { row with mkvRow } :: m.mkvCol.eraseP (·.sourceBAddr = m.prevBlock) }
  | none => m.addNewRow missed

def seen (m : Markov) (missed : Nat) : Markov := { m with pfFirstBlock := false, prevBlock := missed }

/-- The row of a block. -/
def row (m : Markov) (missed : Nat) : Option MarkovRow :=
  m.mkvCol.find? (·.sourceBAddr = missed)

/-- The predicted byte address, if the block is in neither cache. -/
def predict (cache : Cache) (peer : Option Cache) (missed : Nat) : Option MarkovRow → Option Nat
  | some { mkvRow := x :: rest, .. } =>
      let mfu := getMfuBlockAddr (x :: rest)
      let byteAddr := shiftLeft64 mfu cache.cfg.b
      if !peer.any (·.blockIn byteAddr) && !cache.blockIn byteAddr && mfu != missed then
        some byteAddr
      else none
  | _ => none

end Markov

/-! ## `on_miss` -/

inductive Prefetcher where
  | plusOne
  | markov (m : Markov)
  | hybrid (m : Markov)
  deriving DecidableEq, Repr

namespace Prefetcher

/-- `PlusOnePrefetcher::on_miss`: the byte address to prefetch. -/
def plusOneMiss (cache : Cache) (peer : Option Cache) (missed : Nat) : Option Nat :=
  let byteAddr := shiftLeft64 (missed + 1) cache.cfg.b
  if peer.any (·.blockIn byteAddr) || cache.blockIn byteAddr then none else some byteAddr

def markovMiss (m : Markov) (cache : Cache) (peer : Option Cache) (missed : Nat) :
    Markov × Option Nat :=
  if m.maxMkvRows = 0 ∨ m.pfFirstBlock then (m.seen missed, none)
  else ((m.learn missed).seen missed, Markov.predict cache peer missed (m.row missed))

/-- The table's prediction, or the next block where the table has no row. -/
def hybridMiss (m : Markov) (cache : Cache) (peer : Option Cache) (missed : Nat) :
    Markov × Option Nat :=
  if m.maxMkvRows = 0 then (m.seen missed, plusOneMiss cache peer missed)
  else
    let prefetch :=
      match m.row missed with
      | some row => Markov.predict cache peer missed (some row)
      | none => plusOneMiss cache peer missed
    (if m.pfFirstBlock then m.seen missed else (m.learn missed).seen missed, prefetch)

def onMiss (pf : Prefetcher) (cache : Cache) (peer : Option Cache) (demand : MemReq) :
    Prefetcher × Option Nat :=
  let missed := cache.getBlockAddr demand.addr
  match pf with
  | .plusOne => (.plusOne, plusOneMiss cache peer missed)
  | .markov m => ((markovMiss m cache peer missed).map .markov id)
  | .hybrid m => ((hybridMiss m cache peer missed).map .hybrid id)

end Prefetcher

namespace Cache

variable {β : Below}

theorem promote_cfg (c : Cache) (blockAddr : Nat) (f : TagMeta → TagMeta) :
    (c.promote blockAddr f).cfg = c.cfg := by
  unfold promote
  split <;> rfl

def issuePrefetch (c : Cache) (below : β.State) (byteAddr : Nat) : Result β :=
  if c.blockIn byteAddr then { cache := c, below }
  else
    let r := c.insertNewBlock below false (c.getBlockAddr byteAddr) true
    { r with
      cache := r.cache.bump fun st => { st with prefetchesIssued := st.prefetchesIssued + 1 } }

/-- `access` of a cache with a prefetcher: it is asked after a miss that was filled. -/
def accessPrefetching (c : Cache) (pf : Option Prefetcher) (peer : Option Cache)
    (below : β.State) (req : MemReq) : Result β × Option Prefetcher × AccessResult :=
  let (r, result) := c.access below req
  match pf with
  | none => (r, none, result)
  | some pf =>
      if !c.blockIn req.addr && r.cache.blockIn req.addr then
        match pf.onMiss r.cache peer req with
        | (pf, none) => (r, some pf, result)
        | (pf, some byteAddr) =>
            let filled := r.cache.issuePrefetch r.below byteAddr
            ({ filled with calls := r.calls ++ filled.calls }, some pf, result)
      else (r, some pf, result)

/-- A request enters the table under the next id. -/
def enter (r : Result β) (blockAddr : Nat) (req : MemReq) (dueCycle : Nat) (result : AccessResult) :
    Result β × Nat :=
  let id := r.cache.nextId
  let mshr := (r.cache.mshr.allocate id blockAddr req.op req.pc dueCycle result).getD r.cache.mshr
  ({ r with cache := { r.cache with mshr, nextId := id + 1 } }, id)

/-- `issue`, where `access` would do what is given. -/
def issueBy (c : Cache) (pf : Option Prefetcher) (below : β.State) (req : MemReq)
    (accessed : Result β × Option Prefetcher × AccessResult) : Result β × Option Prefetcher × Option Nat :=
  let blockAddr := c.getBlockAddr req.addr
  match c.mshr.table.find? fun e => req.op ≠ .write && e.targets blockAddr with
  | some e =>
      let (r, id) := enter { cache := c, below } blockAddr req e.dueCycle e.result
      (r, pf, some id)
  | none =>
      if c.mshr.full then ({ cache := c, below }, pf, none)
      else
        let (r, pf, result) := accessed
        let due :=
          if result.latency = coherenceSuspendedLatency then never
          else (r.cache.now + result.latency) % 2 ^ 64
        let (r, id) := enter r blockAddr req due result
        (r, pf, some id)

/-- Without a prefetcher it is `issue`. -/
theorem issueBy_access (c : Cache) (below : β.State) (req : MemReq) :
    c.issueBy none below req ((c.access below req).1, none, (c.access below req).2) =
      ((c.issue below req).1, none, (c.issue below req).2) := by
  unfold issueBy issue
  simp only
  cases c.mshr.table.find? fun e => req.op ≠ .write && e.targets (c.getBlockAddr req.addr) with
  | some e => rfl
  | none =>
      simp only
      split <;> rfl

end Cache

end Memory
