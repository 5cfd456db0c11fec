import Mathlib.Data.List.Basic
import Mathlib.Algebra.Group.Nat.Defs

/-! # Memory requests and the MSHR table

What a cache is asked, what it answers, and the fixed table of its outstanding
misses.
-/

namespace Memory

inductive Op where
  | read
  | write
  | prefetch
  deriving DecidableEq, Repr

structure MemReq where
  addr : Nat
  op : Op := .read
  pc : Nat := 0
  /-- What the topmost level was asked to do. -/
  originatingOp : Op := .read
  tid : Nat := 0
  deriving DecidableEq, Repr

structure AccessResult where
  hit : Bool := false
  latency : Nat := 0
  deriving DecidableEq, Repr

/-- `kCoherenceSuspendedLatency`. -/
def coherenceSuspendedLatency : Nat := 2 ^ 32 - 1

/-- `rw_of(op) == 'W'`. -/
def Op.isWrite (op : Op) : Bool := op = .write

/-- Rewrite the first element that meets `p`. -/
def modifyFirst {α : Type} (p : α → Bool) (f : α → α) : List α → List α
  | [] => []
  | x :: rest => if p x then f x :: rest else x :: modifyFirst p f rest

structure MSHREntry where
  id : Nat := 0
  blockAddr : Nat := 0
  op : Op := .read
  pc : Nat := 0
  valid : Bool := false
  ready : Bool := false
  dueCycle : Nat := 0
  result : AccessResult := {}
  /-- Later requests for the same block, in order. -/
  mergedIds : List Nat := []
  deriving DecidableEq, Repr

/-- `entry_holds`. -/
def MSHREntry.holds (e : MSHREntry) (id : Nat) : Bool :=
  e.valid && (e.id == id || e.mergedIds.contains id)

/-- The slot is in use for the block. -/
def MSHREntry.targets (e : MSHREntry) (blockAddr : Nat) : Bool :=
  e.valid && e.blockAddr == blockAddr

structure MSHR where
  table : List MSHREntry
  deriving DecidableEq, Repr

namespace MSHR

def make (numEntries : Nat) : MSHR := ⟨List.replicate numEntries {}⟩

def full (m : MSHR) : Bool := m.table.all (·.valid)

def find (m : MSHR) (id : Nat) : Option MSHREntry := m.table.find? (·.holds id)

/-- `none` where the table is full and no slot targets the block. -/
def allocate (m : MSHR) (id blockAddr : Nat) (op : Op) (pc dueCycle : Nat) (result : AccessResult) :
    Option MSHR :=
  if m.table.any (·.targets blockAddr) then
    some ⟨modifyFirst (·.targets blockAddr) (fun e => { e with mergedIds := e.mergedIds ++ [id] })
      m.table⟩
  else if m.full then none
  else
    some ⟨modifyFirst (fun e => !e.valid)
      (fun _ => { id, blockAddr, op, pc, valid := true, dueCycle, result }) m.table⟩

def tick (m : MSHR) (now : Nat) : MSHR :=
  ⟨m.table.map fun e =>
    if e.valid ∧ e.ready = false ∧ e.dueCycle ≤ now then { e with ready := true } else e⟩

/-- One holder leaves its slot; the first secondary takes a primary's place. -/
def releaseEntry (id : Nat) (e : MSHREntry) : MSHREntry :=
  if e.id = id then
    match e.mergedIds with
    | [] => { e with valid := false, ready := false }
    | next :: rest => { e with id := next, mergedIds := rest }
  else { e with mergedIds := e.mergedIds.erase id }

def release (m : MSHR) (id : Nat) : MSHR :=
  ⟨modifyFirst (·.holds id) (releaseEntry id) m.table⟩

/-- `Cache::mark_ready`. -/
def markReady (m : MSHR) (id : Nat) : MSHR :=
  ⟨modifyFirst (·.holds id) (fun e => { e with ready := true }) m.table⟩

/-- `mark_block_ready`: every holder of a slot for the block wakes up. -/
def markBlockReady (m : MSHR) (blockAddr : Nat) : MSHR :=
  ((m.table.filter (·.targets blockAddr)).flatMap fun e => e.id :: e.mergedIds).foldl markReady m

end MSHR

end Memory
