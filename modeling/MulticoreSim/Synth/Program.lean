import MulticoreSim.Library.Machine
import MulticoreSim.Sync.Reader

/-! # Building a program

`casim_synth` writes the threads of a program call by call. The numbers of locks
and barriers come from counters that all threads share, in the order of the calls.
-/

namespace Synth

open Ooo (Record)
open Sync (TraceRecord SyncRecord)

/-! ## Threads -/

structure ThreadState where
  records : List TraceRecord := []
  /-- The innermost first. -/
  heldLocks : List (Nat × Nat) := []
  nextPc : Nat := 0x10000

/-- `trace::Record r{}`. -/
def blank : Record where
  destinationRegisters := [0, 0]
  sourceRegisters := [0, 0, 0, 0]
  destinationMemory := [0, 0]
  sourceMemory := [0, 0, 0, 0]

namespace ThreadState

def instr (st : ThreadState) (r : Record) (plain : r.syncToken = none) : ThreadState :=
  { st with records := st.records ++ [.instr { r with ip := st.nextPc } plain], nextPc := st.nextPc + 4 }

def sync (st : ThreadState) (s : SyncRecord) : ThreadState :=
  { st with records := st.records ++ [.sync { s with ip := st.nextPc }], nextPc := st.nextPc + 4 }

/-- `n` instructions, with destinations in turn. -/
def block (st : ThreadState) (isMul : Bool) (n : Nat) : ThreadState :=
  (List.range n).foldl (fun st i => st.instr
    { blank with isMul, destinationRegisters := [Fin.ofNat 256 (1 + i % 31), 0] } rfl) st

def load (st : ThreadState) (addr : Nat) : ThreadState :=
  st.instr { blank with sourceMemory := [addr, 0, 0, 0], destinationRegisters := [1, 0] } rfl

def store (st : ThreadState) (addr : Nat) : ThreadState :=
  st.instr { blank with destinationMemory := [addr, 0], sourceRegisters := [1, 0, 0, 0] } rfl

def branch (st : ThreadState) (taken : Bool) : ThreadState :=
  st.instr { blank with isBranch := true, branchTaken := taken } rfl

end ThreadState

/-! ## Programs -/

structure BarrierState where
  expected : Nat := 0
  iter : Nat := 0
  arrivedThisIter : Nat := 0
  deriving DecidableEq, Repr

/-- One more arrival. -/
def BarrierState.arrive (bs : BarrierState) : BarrierState :=
  if bs.arrivedThisIter + 1 ≥ bs.expected then { bs with arrivedThisIter := 0, iter := bs.iter + 1 }
  else { bs with arrivedThisIter := bs.arrivedThisIter + 1 }

namespace ThreadState

/-- Record an acquire, and hold the lock. -/
def acquire (st : ThreadState) (m seq : Nat) : ThreadState :=
  let st := st.sync { kind := .lockAcquire, syncObjectAddr := m, sequenceNo := seq }
  { st with heldLocks := (m, seq) :: st.heldLocks }

def release (st : ThreadState) (m seq : Nat) : ThreadState :=
  st.sync { kind := .lockRelease, syncObjectAddr := m, sequenceNo := seq }

/-- Arrive at a barrier and leave it. -/
def cross (st : ThreadState) (b : Nat) (bs : BarrierState) : ThreadState :=
  let st := st.sync
    { kind := .barrierArrive, syncObjectAddr := b, sequenceNo := bs.iter, extraArg := bs.expected }
  st.sync { kind := .barrierLeave, syncObjectAddr := b, sequenceNo := bs.iter }

end ThreadState

/-- `Program`. No counter wraps: what it counts takes memory. -/
structure Program where
  threadCount : Nat
  threads : Nat → ThreadState
  nextLockSeq : Nat → Option Nat := fun _ => none
  barriers : Nat → Option BarrierState := fun _ => none
  nextMutexId : Nat := 0x800000
  nextBarrierId : Nat := 0x900000
  written : Bool := false

namespace Program

/-- The constructor, which staggers the addresses of the threads. -/
def make (threads : Nat) : Except String Program :=
  if threads = 0 then .error "Program: thread count must be > 0"
  else .ok { threadCount := threads, threads := fun i => { nextPc := 0x10000 + 0x1000000 * i } }

def mutex (p : Program) : Nat × Program :=
  (p.nextMutexId, { p with
    nextMutexId := p.nextMutexId + 0x40
    nextLockSeq := Function.update p.nextLockSeq p.nextMutexId (some 0) })

def barrier (p : Program) (expectedParticipants : Nat) : Except String (Nat × Program) :=
  if expectedParticipants = 0 then
    .error "Program::barrier: expected_participants must be > 0"
  else if expectedParticipants > p.threadCount then
    .error "Program::barrier: expected_participants exceeds thread count"
  else
    .ok (p.nextBarrierId, { p with
      nextBarrierId := p.nextBarrierId + 0x40
      barriers := Function.update p.barriers p.nextBarrierId (some { expected := expectedParticipants }) })

def checkTid (p : Program) (tid : Nat) : Except String Unit :=
  if tid ≥ p.threadCount then .error s!"Program: tid={tid} >= threads={p.threadCount}"
  else .ok ()

/-- `t`, whose handle is known by its thread. -/
def t (p : Program) (tid : Nat) : Except String Nat := do
  p.checkTid tid
  if p.written then .error "Program::t: cannot mutate after write()" else .ok tid

def onThread (p : Program) (tid : Nat) (f : ThreadState → ThreadState) : Program :=
  { p with threads := Function.update p.threads tid (f (p.threads tid)) }

@[simp] theorem onThread_self (p : Program) (tid : Nat) (f : ThreadState → ThreadState) :
    (p.onThread tid f).threads tid = f (p.threads tid) := Function.update_self ..

theorem onThread_of_ne (p : Program) (f : ThreadState → ThreadState) {tid i : Nat} (other : i ≠ tid) :
    (p.onThread tid f).threads i = p.threads i := Function.update_of_ne other ..

theorem onThread_onThread (p : Program) (tid : Nat) (f g : ThreadState → ThreadState) :
    (p.onThread tid f).onThread tid g = p.onThread tid fun st => g (f st) := by
  simp only [onThread, Function.update_idem, Function.update_self]

/-- What the helpers that emit instructions alone do. -/
def emit (p : Program) (tid : Nat) (f : ThreadState → ThreadState) : Except String Program := do
  p.checkTid tid
  .ok (p.onThread tid f)

def emitAluBlock (p : Program) (tid n : Nat) : Except String Program := p.emit tid (·.block false n)
def emitMulBlock (p : Program) (tid n : Nat) : Except String Program := p.emit tid (·.block true n)
def emitLoad (p : Program) (tid addr : Nat) : Except String Program := p.emit tid (·.load addr)
def emitStore (p : Program) (tid addr : Nat) : Except String Program := p.emit tid (·.store addr)

def emitBranch (p : Program) (tid : Nat) (taken : Bool) : Except String Program :=
  p.emit tid (·.branch taken)

/-- Real hardware takes a lock by a load and a store on the lock's word. -/
def emitLock (p : Program) (tid m : Nat) : Except String Program := do
  p.checkTid tid
  match p.nextLockSeq m with
  | none => .error "Program::lock: unknown MutexId (call Program::mutex() first)"
  | some seq =>
      let p := { p with nextLockSeq := Function.update p.nextLockSeq m (some (seq + 1)) }
      let p ← p.emitLoad tid m
      let p ← p.emitStore tid m
      .ok (p.onThread tid (·.acquire m seq))

def emitUnlock (p : Program) (tid m : Nat) : Except String Program := do
  p.checkTid tid
  match (p.threads tid).heldLocks with
  | [] => .error "Program::unlock: no matching prior lock on this thread for mutex"
  | (held, seq) :: outer =>
      if held ≠ m then .error "Program::unlock: no matching prior lock on this thread for mutex"
      else
        let p := p.onThread tid fun st => { st with heldLocks := outer }
        let p ← p.emitStore tid m
        .ok (p.onThread tid (·.release m seq))

def emitBarrier (p : Program) (tid b : Nat) : Except String Program := do
  p.checkTid tid
  match p.barriers b with
  | none => .error "Program::barrier: unknown BarrierId (call Program::barrier() first)"
  | some bs =>
      let p := { p with barriers := Function.update p.barriers b (some bs.arrive) }
      .ok (p.onThread tid (·.cross b bs))

/-- `write`, but for the files, which hold the threads' records as they are. -/
def write (p : Program) : Except String Program :=
  if p.written then .error "Program::write: already written" else .ok { p with written := true }

/-- The files, by thread. -/
def traces (p : Program) (tid : Nat) : List TraceRecord := (p.threads tid).records

end Program

/-! ## Calls -/

/-- A call of a program or of the handle of one of its threads. -/
inductive Call where
  | mutex
  | newBarrier (expectedParticipants : Nat)
  | t (tid : Nat)
  | alus (tid n : Nat)
  | muls (tid n : Nat)
  | load (tid addr : Nat)
  | store (tid addr : Nat)
  | branch (tid : Nat) (taken : Bool)
  | lock (tid m : Nat)
  | unlock (tid m : Nat)
  | barrier (tid b : Nat)
  | write
  deriving DecidableEq, Repr

def builder : Machine Program Call String where
  step p
    | .mutex => .ok p.mutex.2
    | .newBarrier expected => (p.barrier expected).map Prod.snd
    | .t tid => (p.t tid).map fun _ => p
    | .alus tid n => p.emitAluBlock tid n
    | .muls tid n => p.emitMulBlock tid n
    | .load tid addr => p.emitLoad tid addr
    | .store tid addr => p.emitStore tid addr
    | .branch tid taken => p.emitBranch tid taken
    | .lock tid m => p.emitLock tid m
    | .unlock tid m => p.emitUnlock tid m
    | .barrier tid b => p.emitBarrier tid b
    | .write => p.write

/-- What some calls make of a new program. -/
def build (threads : Nat) (calls : List Call) : Except String Program :=
  (Program.make threads).bind fun p => builder.exec p calls

/-! ## What a call does -/

/-- Instructions alone. -/
def Plain (records : List TraceRecord) : Prop := ∀ r ∈ records, ∃ i plain, r = .instr i plain

theorem plain_one (i : Record) (plain : i.syncToken = none) : Plain [.instr i plain] := by
  intro r mem
  exact ⟨i, plain, List.mem_singleton.mp mem⟩

theorem Plain.append {xs ys : List TraceRecord} (plain : Plain xs) (plain' : Plain ys) : Plain (xs ++ ys) :=
  fun r mem => (List.mem_append.mp mem).elim (plain r) (plain' r)

/-- One thread state is another with instructions behind. -/
structure ThreadState.Adds (st st' : ThreadState) : Prop where
  records : ∃ more, Plain more ∧ st'.records = st.records ++ more
  held : st'.heldLocks = st.heldLocks

namespace ThreadState

variable {st st' st'' : ThreadState}

theorem Adds.trans (first : st.Adds st') (second : st'.Adds st'') : st.Adds st'' := by
  obtain ⟨more, plain, eq⟩ := first.records
  obtain ⟨more', plain', eq'⟩ := second.records
  refine ⟨⟨more ++ more', plain.append plain', ?_⟩, second.held.trans first.held⟩
  rw [eq', eq, List.append_assoc]

theorem adds_instr (st : ThreadState) (r : Record) (plain : r.syncToken = none) :
    st.Adds (st.instr r plain) := ⟨⟨_, plain_one { r with ip := st.nextPc } plain, rfl⟩, rfl⟩

theorem adds_block (st : ThreadState) (isMul : Bool) (n : Nat) : st.Adds (st.block isMul n) := by
  induction n with
  | zero => exact ⟨⟨[], nofun, (List.append_nil _).symm⟩, rfl⟩
  | succ n ih =>
      rw [block, List.range_succ, List.foldl_append]
      exact ih.trans (adds_instr ..)

end ThreadState

/-- The barrier that a call crosses, and the thread. -/
def Call.crossing : Call → Option (Nat × Nat)
  | .barrier tid b => some (b, tid)
  | _ => none

/-- A call that does not throw. -/
inductive Change (p : Program) : Call → Program → Prop where
  | idle {a : Call} {written : Bool} (quiet : a.crossing = none) : Change p a { p with written }
  | instrs {a : Call} {tid : Nat} {st : ThreadState} (quiet : a.crossing = none)
      (inside : tid < p.threadCount) (adds : (p.threads tid).Adds st) :
      Change p a (p.onThread tid fun _ => st)
  | mutex : Change p .mutex p.mutex.2
  | newBarrier {expected : Nat} (some : 0 < expected) (enough : expected ≤ p.threadCount) :
      Change p (.newBarrier expected) { p with
        nextBarrierId := p.nextBarrierId + 0x40
        barriers := Function.update p.barriers p.nextBarrierId (Option.some { expected }) }
  | lock {tid m seq : Nat} {st : ThreadState} (inside : tid < p.threadCount)
      (known : p.nextLockSeq m = some seq) (adds : (p.threads tid).Adds st) :
      Change p (.lock tid m) { p.onThread tid fun _ => st.acquire m seq with
        nextLockSeq := Function.update p.nextLockSeq m (some (seq + 1)) }
  | unlock {tid m seq : Nat} {outer : List (Nat × Nat)} {st : ThreadState} (inside : tid < p.threadCount)
      (innermost : (p.threads tid).heldLocks = (m, seq) :: outer)
      (adds : ({ p.threads tid with heldLocks := outer } : ThreadState).Adds st) :
      Change p (.unlock tid m) (p.onThread tid fun _ => st.release m seq)
  | barrier {tid b : Nat} {bs : BarrierState} (inside : tid < p.threadCount) (known : p.barriers b = some bs) :
      Change p (.barrier tid b) { p.onThread tid (·.cross b bs) with
        barriers := Function.update p.barriers b (some bs.arrive) }

section

variable {p p' : Program} {tid : Nat}

theorem bind_ok {α β : Type} {x : Except String α} {f : α → Except String β} {b : β}
    (ran : x >>= f = .ok b) : ∃ a, x = .ok a ∧ f a = .ok b := by
  cases x with
  | error what => cases ran
  | ok a => exact ⟨a, rfl, ran⟩

theorem map_ok {α β : Type} {x : Except String α} {f : α → β} {b : β} (ran : x.map f = .ok b) :
    ∃ a, x = .ok a ∧ f a = b := by
  cases x with
  | error what => cases ran
  | ok a => exact ⟨a, rfl, Except.ok.inj ran⟩

theorem Program.checkTid_bind {α : Type} {rest : Except String α} {x : α}
    (ran : (do p.checkTid tid; rest) = .ok x) : tid < p.threadCount ∧ rest = .ok x := by
  unfold checkTid at ran
  split at ran
  · cases ran
  · next inside => exact ⟨Nat.lt_of_not_le inside, ran⟩

theorem Program.emit_eq {f : ThreadState → ThreadState} (ran : p.emit tid f = .ok p') :
    tid < p.threadCount ∧ p' = p.onThread tid f := by
  obtain ⟨inside, rest⟩ := checkTid_bind ran
  cases rest
  exact ⟨inside, rfl⟩

theorem change_emit {a : Call} {f : ThreadState → ThreadState} (quiet : a.crossing = none)
    (adds : ∀ st, ThreadState.Adds st (f st)) (ran : p.emit tid f = .ok p') : Change p a p' := by
  obtain ⟨inside, rfl⟩ := Program.emit_eq ran
  exact .instrs quiet inside (adds _)

theorem change_lock {m : Nat} (ran : p.emitLock tid m = .ok p') : Change p (.lock tid m) p' := by
  obtain ⟨inside, ran⟩ := Program.checkTid_bind ran
  split at ran
  · cases ran
  · next seq known =>
      obtain ⟨p₁, loaded, ran⟩ := bind_ok ran
      obtain ⟨p₂, stored, ran⟩ := bind_ok ran
      cases ran
      obtain ⟨-, rfl⟩ := Program.emit_eq loaded
      obtain ⟨-, rfl⟩ := Program.emit_eq stored
      rw [Program.onThread_onThread, Program.onThread_onThread]
      exact .lock inside known ((ThreadState.adds_instr ..).trans (ThreadState.adds_instr ..))

theorem change_unlock {m : Nat} (ran : p.emitUnlock tid m = .ok p') : Change p (.unlock tid m) p' := by
  obtain ⟨inside, ran⟩ := Program.checkTid_bind ran
  split at ran
  · cases ran
  · next held seq outer innermost =>
      split at ran
      · cases ran
      · next same =>
          obtain rfl := Decidable.not_not.mp same
          obtain ⟨p₁, stored, ran⟩ := bind_ok ran
          cases ran
          obtain ⟨-, rfl⟩ := Program.emit_eq stored
          rw [Program.onThread_onThread, Program.onThread_onThread]
          exact .unlock inside innermost (ThreadState.adds_instr ..)

theorem change_barrier {b : Nat} (ran : p.emitBarrier tid b = .ok p') : Change p (.barrier tid b) p' := by
  obtain ⟨inside, ran⟩ := Program.checkTid_bind ran
  split at ran
  · cases ran
  · next bs known =>
      cases ran
      exact .barrier inside known

theorem builder_change {a : Call} (ran : builder.step p a = .ok p') : Change p a p' := by
  cases a with
  | mutex =>
      cases ran
      exact .mutex
  | newBarrier expected =>
      simp only [builder, Program.barrier] at ran
      split at ran
      · cases ran
      · split at ran
        · cases ran
        · next some enough =>
            cases ran
            exact .newBarrier (Nat.pos_of_ne_zero some) (Nat.le_of_not_lt enough)
  | t tid =>
      obtain ⟨_, -, same⟩ := map_ok ran
      cases same
      exact .idle rfl
  | alus tid n => exact change_emit rfl (ThreadState.adds_block · false n) ran
  | muls tid n => exact change_emit rfl (ThreadState.adds_block · true n) ran
  | load tid addr => exact change_emit rfl (fun st => ThreadState.adds_instr st ..) ran
  | store tid addr => exact change_emit rfl (fun st => ThreadState.adds_instr st ..) ran
  | branch tid taken => exact change_emit rfl (fun st => ThreadState.adds_instr st ..) ran
  | lock tid m => exact change_lock ran
  | unlock tid m => exact change_unlock ran
  | barrier tid b => exact change_barrier ran
  | write =>
      simp only [builder, Program.write] at ran
      split at ran
      · cases ran
      · cases ran
        exact .idle rfl

end

end Synth
