import MulticoreSim.Library.CircularBuffer
import MulticoreSim.Library.Machine
import MulticoreSim.Memory.Mshr
import MulticoreSim.Ooo.Inst

/-! # The out-of-order core

One core: retire, exec, schedule, dispatch and fetch, in that order within a
cycle. The trace reader, the branch predictor and the L1-D cache are what the
core finds around it.
-/

namespace Ooo

structure Branch where
  ip : Nat
  taken : Bool
  instNum : Nat
  deriving DecidableEq, Repr

/-- The reader, the predictor and the data cache, behind the calls a core makes.
    A call that can throw answers in `Except`. -/
structure Surroundings where
  State : Type
  /-- `Reader::next`, with `none` for `false`. -/
  next : State → Except String (Option Record × State)
  /-- `Reader::blocked`. -/
  blocked : State → Bool
  /-- `SyncSink::notify_retire` of a thread's token and its place, where a sink is wired. -/
  notifyRetire : State → Nat → SyncToken → Nat → Except String State
  predict : State → Branch → Bool × State
  update : State → Branch → Bool → State
  /-- `l1d_->mshr().full()`. -/
  l1Full : State → Bool
  /-- `peek` finds a slot that is ready. -/
  l1Ready : State → Nat → Bool
  l1Issue : State → Memory.MemReq → Except String (Option Nat × State)
  l1Complete : State → Nat → State
  l1Tick : State → State

structure OooConfig where
  fetchWidth : Nat := 4
  robEntries : Nat := 96
  schedqEntriesPerFu : Nat := 2
  dispqCapacity : Nat := 32
  aluFus : Nat := 3
  mulFus : Nat := 2
  lsuFus : Nat := 2
  deadlockThresholdCycles : Nat := 100000
  deriving DecidableEq, Repr

def OooConfig.schedqCapacity (cfg : OooConfig) : Nat :=
  cfg.schedqEntriesPerFu * (cfg.aluFus + cfg.mulFus + cfg.lsuFus)

/-! ## Register alias table -/

structure RatEntry where
  tag : Nat := 0
  ready : Bool := true
  deriving DecidableEq, Repr

structure Rat where
  entries : Reg → RatEntry := fun reg => { tag := reg.val + 1 }
  nextTag : Nat := 257

namespace Rat

def read (rat : Rat) : Option Reg → RatEntry
  | none => {}
  | some reg => rat.entries reg

def writeUse (rat : Rat) (dest : Option Reg) (tag : Nat) : Rat :=
  match dest with
  | none => rat
  | some reg => { rat with entries := Function.update rat.entries reg { tag, ready := false } }

/-- A tag that a later dispatch overwrote is ignored. -/
def markComplete (rat : Rat) (dest : Option Reg) (tag : Nat) : Rat :=
  match dest with
  | none => rat
  | some reg =>
      if (rat.entries reg).tag = tag then
        { rat with entries := Function.update rat.entries reg { tag, ready := true } }
      else rat

def flushToReady (rat : Rat) : Rat :=
  { rat with entries := fun reg => { rat.entries reg with ready := true } }

variable (rat : Rat) (dest : Option Reg) (tag : Nat) (reg : Reg)

@[simp] theorem flushToReady_nextTag : rat.flushToReady.nextTag = rat.nextTag := rfl

@[simp] theorem markComplete_nextTag : (rat.markComplete dest tag).nextTag = rat.nextTag := by
  unfold markComplete
  repeat' split
  all_goals rfl

@[simp] theorem writeUse_nextTag : (rat.writeUse dest tag).nextTag = rat.nextTag := by
  unfold writeUse
  split <;> rfl

theorem writeUse_self (here : dest = some reg) :
    (rat.writeUse dest tag).entries reg = { tag, ready := false } := by
  simp [writeUse, here]

theorem writeUse_other (other : dest ≠ some reg) :
    (rat.writeUse dest tag).entries reg = rat.entries reg := by
  cases dest with
  | none => rfl
  | some r => exact Function.update_of_ne (fun same => other (congrArg some same.symm)) ..

theorem markComplete_self (here : dest = some reg) : (rat.markComplete dest tag).entries reg =
    { tag := (rat.entries reg).tag
      ready := decide ((rat.entries reg).tag = tag) || (rat.entries reg).ready } := by
  simp only [markComplete, here]
  split
  · next same => simp [same]
  · next other => simp [other]

theorem markComplete_other (other : dest ≠ some reg) :
    (rat.markComplete dest tag).entries reg = rat.entries reg := by
  cases dest with
  | none => rfl
  | some r =>
      simp only [markComplete]
      split
      · exact Function.update_of_ne (fun same => other (congrArg some same.symm)) ..
      · rfl

end Rat

/-! ## Scheduling queue -/

structure SrcOperand where
  tag : Nat := 0
  ready : Bool := true
  deriving DecidableEq, Repr

structure SchedEntry where
  inst : Inst
  src1 : SrcOperand
  src2 : SrcOperand
  destTag : Nat
  robIdx : Nat
  busy : Bool := false
  deriving DecidableEq, Repr

def SrcOperand.wake (src : SrcOperand) (resultTag : Nat) : SrcOperand :=
  if src.tag = resultTag then { src with ready := true } else src

def SchedEntry.wake (resultTag : Nat) (e : SchedEntry) : SchedEntry :=
  { e with src1 := e.src1.wake resultTag, src2 := e.src2.wake resultTag }

def wakeDependents (sq : List SchedEntry) (resultTag : Nat) : List SchedEntry :=
  sq.map (SchedEntry.wake resultTag)

def eraseByTag (sq : List SchedEntry) (destTag : Nat) : List SchedEntry :=
  sq.eraseP (·.destTag = destTag)

/-- `oldest->busy = true`. -/
def markBusy (sq : List SchedEntry) (destTag : Nat) : List SchedEntry :=
  Memory.modifyFirst (·.destTag = destTag) (fun e => { e with busy := true }) sq

/-- The entry a pointer of a functional unit stands for: no two entries share a tag. -/
def entryOf (sq : List SchedEntry) (destTag : Nat) : Option SchedEntry :=
  sq.find? (·.destTag = destTag)

/-- An entry waits for a unit and its operands are there. -/
def SchedEntry.canFire (e : SchedEntry) : Bool := !e.busy && e.src1.ready && e.src2.ready

/-- An entry that can fire takes the place of an oldest so far that is younger. -/
def takeOlder (pred : SchedEntry → Bool) (oldest : Option SchedEntry) (e : SchedEntry) :
    Option SchedEntry :=
  if !e.canFire || !pred e then oldest
  else
    match oldest with
    | none => some e
    | some o => if e.inst.dynCount < o.inst.dynCount then some e else some o

/-- `pick_oldest`. -/
def pickOldest (sq : List SchedEntry) (pred : SchedEntry → Bool) : Option SchedEntry :=
  sq.foldl (takeOlder pred) none

/-- An older operation of the queue keeps a memory operation back: a load waits
    for stores, a store for loads and stores. -/
def ambiguous (sq : List SchedEntry) (e : SchedEntry) : Bool :=
  sq.any fun other =>
    other.inst.dynCount < e.inst.dynCount &&
      if e.inst.opcode = .load then other.inst.opcode = .store else other.inst.opcode.isMem

/-! ## Reorder buffer -/

structure RobEntry where
  ready : Bool := false
  destReg : Option Reg := none
  destTag : Nat := 0
  inst : Inst := { pc := 0, dynCount := 0 }
  deriving DecidableEq, Repr

abbrev Rob := CircularBuffer RobEntry

/-- `head_entry`. -/
def Rob.headEntry (rob : Rob) : RobEntry := rob.slots rob.head

/-! ## Functional units

A unit keeps the tag of the entry its pointer stands for. -/

/-- The three stages of a multiplier. -/
structure MulUnit where
  stage1 : Option Nat := none
  stage2 : Option Nat := none
  stage3 : Option Nat := none
  deriving DecidableEq, Repr

/-- What a busy load-store unit holds. -/
structure LsuUnit where
  isLoad : Bool
  mshrId : Nat
  sched : Nat
  deriving DecidableEq, Repr

structure Units where
  alu : List (Option Nat)
  mul : List MulUnit
  lsu : List (Option LsuUnit)
  deriving DecidableEq, Repr

/-! ## The core -/

/-- What happened in a core, in order. -/
inductive Event where
  | fetched (record : Record) (inst : Inst)
  | dispatched (inst : Inst) (tag : Nat)
  /-- The cache was asked to `issue`, whether or not it took the request. -/
  | called (inst : Inst)
  /-- Placed in a functional unit. -/
  | fired (inst : Inst)
  | wroteBack (inst : Inst)
  | retired (inst : Inst) (tag : Nat)
  deriving DecidableEq, Repr

/-- Why a cycle fetched nothing. -/
inductive FetchStall where
  | dispqFull | sync | eof
  deriving DecidableEq, Repr

structure OooStats where
  cycles : Nat := 0
  instructionsFetched : Nat := 0
  instructionsRetired : Nat := 0
  numBranchInstructions : Nat := 0
  branchMispredictions : Nat := 0
  deadlocked : Bool := false
  stallCyclesAtAbort : Nat := 0
  usefulRetireCycles : Nat := 0
  fetchStallSync : Nat := 0
  fetchStallDispqFull : Nat := 0
  fetchStallMispred : Nat := 0
  fetchStallEof : Nat := 0
  retireStallRobEmpty : Nat := 0
  retireStallHeadBusy : Nat := 0
  deriving DecidableEq, Repr

/-- Retired and fetched counts, then the sizes of ROB, scheduling and dispatch queue. -/
structure ProgressSig where
  retired : Nat
  fetched : Nat
  rob : Nat
  sq : Nat
  dispq : Nat
  deriving DecidableEq, Repr

structure Core (S : Surroundings) where
  cfg : OooConfig
  outside : S.State
  dispq : List Inst := []
  sq : List SchedEntry := []
  rob : Rob
  rat : Rat := {}
  units : Units
  eof : Bool := false
  inMispred : Bool := false
  dynCount : Nat := 0
  lastProgressSig : Option ProgressSig := none
  stallCycles : Nat := 0
  stats : OooStats := {}
  activeTid : Nat := 0
  /-- The history, which no stage reads. -/
  log : List Event := []

variable {S : Surroundings}

namespace Core

def make (cfg : OooConfig) (outside : S.State) (activeTid : Nat) : Core S :=
  { cfg, outside, activeTid
    rob := { slots := fun _ => {}, capacity := cfg.robEntries }
    units :=
      { alu := List.replicate cfg.aluFus none
        mul := List.replicate cfg.mulFus {}
        lsu := List.replicate cfg.lsuFus none } }

def record (c : Core S) (event : Event) : Core S := { c with log := c.log ++ [event] }

/-! ## Retire -/

/-- `rob_.retire_head()`, counted. -/
def retireHead (c : Core S) : Core S :=
  let head := c.rob.headEntry
  { c with
    rob := c.rob.pop
    stats := { c.stats with instructionsRetired := c.stats.instructionsRetired + 1 }
    log := c.log ++ [.retired head.inst head.destTag] }

/-- Train the predictor on a branch that retires. -/
def trainPredictor (c : Core S) (inst : Inst) : Core S :=
  if inst.opcode = .branch then
    { c with
      outside :=
        S.update c.outside { ip := inst.pc, taken := inst.branchTaken, instNum := inst.dynCount }
          inst.predictedTaken
      stats := { c.stats with numBranchInstructions := c.stats.numBranchInstructions + 1 } }
  else c

/-- One turn of the retire loop on a ready head. The flag says that the head was
    a mispredicted branch, after which the loop stops. -/
def retireStep (c : Core S) : Except String (Bool × Core S) :=
  let head := c.rob.headEntry
  let c := c.trainPredictor head.inst
  if head.inst.opcode = .branch ∧ head.inst.mispredict then
    .ok (true, { c with rat := c.rat.flushToReady, inMispred := false }.retireHead)
  else
    match head.inst.syncToken with
    | none => .ok (false, c.retireHead)
    | some token =>
        match S.notifyRetire c.outside c.activeTid token head.inst.pc with
        | .error fault => .error fault
        | .ok outside => .ok (false, { c with outside }.retireHead)

/-- The retire loop, of at most `turns` turns: how many retired, and whether the
    last of them was mispredicted. -/
def retireLoop : Nat → Core S → Except String (Nat × Bool × Core S)
  | 0, c => .ok (0, false, c)
  | turns + 1, c =>
      if c.rob.empty || !c.rob.headEntry.ready then .ok (0, false, c)
      else
        match c.retireStep with
        | .error fault => .error fault
        | .ok (true, c) => .ok (1, true, c)
        | .ok (false, c) =>
            match retireLoop turns c with
            | .error fault => .error fault
            | .ok (retired, mispred, c) => .ok (retired + 1, mispred, c)

/-- Credit the cycle to retiring or to what held it up. -/
def creditRetire (retired : Nat) (robEmptyAtStart headNotReadyAtStart : Bool) (stats : OooStats) :
    OooStats :=
  if retired > 0 then { stats with usefulRetireCycles := stats.usefulRetireCycles + 1 }
  else if robEmptyAtStart then { stats with retireStallRobEmpty := stats.retireStallRobEmpty + 1 }
  else if headNotReadyAtStart then { stats with retireStallHeadBusy := stats.retireStallHeadBusy + 1 }
  else stats

/-- `stage_state_update`: every turn of the loop takes an entry out of the buffer. -/
def stageStateUpdate (c : Core S) : Except String (Bool × Core S) :=
  match retireLoop c.rob.count c with
  | .error fault => .error fault
  | .ok (retired, mispred, after) =>
      .ok (mispred, { after with
        stats := creditRetire retired c.rob.empty (!c.rob.empty && !c.rob.headEntry.ready)
          after.stats })

/-! ## Exec -/

/-- Broadcast a result: mark the table and the buffer, wake the queue's dependents
    and take the entry out of it. A dead pointer would be a fault of its own. -/
def writeback (c : Core S) (tag : Nat) : Except String (Core S) :=
  match entryOf c.sq tag with
  | none => .error "dangling schedQ pointer"
  | some sched =>
      .ok { c with
        rat := c.rat.markComplete sched.inst.dest sched.destTag
        rob := c.rob.modify sched.robIdx fun entry => { entry with ready := true }
        sq := eraseByTag (wakeDependents c.sq sched.destTag) sched.destTag
        log := c.log ++ [.wroteBack sched.inst] }

/-- Complete what an ALU holds. -/
def completeAlu (c : Core S) (unit : Nat) : Except String (Core S) :=
  match c.units.alu[unit]? with
  | some (some tag) =>
      match c.writeback tag with
      | .error fault => .error fault
      | .ok c => .ok { c with units := { c.units with alu := c.units.alu.set unit none } }
  | _ => .ok c

/-- Complete what the third stage of a multiplier holds. -/
def completeMul (c : Core S) (unit : Nat) : Except String (Core S) :=
  match c.units.mul[unit]? with
  | some { stage1, stage2, stage3 := some tag } =>
      match c.writeback tag with
      | .error fault => .error fault
      | .ok c => .ok { c with
          units := { c.units with mul := c.units.mul.set unit { stage1, stage2, stage3 := none } } }
  | _ => .ok c

/-- Move every multiplier on by one stage. -/
def shiftMul (c : Core S) : Core S :=
  { c with units := { c.units with
      mul := c.units.mul.map fun u => { stage1 := none, stage2 := u.stage1, stage3 := u.stage2 } } }

/-- Poll the cache for a load-store unit: loads and stores complete alike. -/
def pollLsu (c : Core S) (unit : Nat) : Except String (Core S) :=
  match c.units.lsu[unit]? with
  | some (some u) =>
      if S.l1Ready c.outside u.mshrId then
        match c.writeback u.sched with
        | .error fault => .error fault
        | .ok c => .ok { c with
            outside := S.l1Complete c.outside u.mshrId
            units := { c.units with lsu := c.units.lsu.set unit none } }
      else .ok c
  | _ => .ok c

/-- One pass over the units of a kind. -/
def overUnits (step : Core S → Nat → Except String (Core S)) (units : List Nat) (c : Core S) :
    Except String (Core S) :=
  match units with
  | [] => .ok c
  | unit :: rest =>
      match step c unit with
      | .error fault => .error fault
      | .ok c => overUnits step rest c

def stageExec (c : Core S) : Except String (Core S) := do
  let c ← overUnits completeAlu (List.range c.units.alu.length) c
  let c ← overUnits completeMul (List.range c.units.mul.length) c
  overUnits pollLsu (List.range c.units.lsu.length) c.shiftMul

/-! ## Schedule -/

/-- Put the oldest entries of a class into free units, as many as were free. -/
def fireInto (runs : Opcode → Bool) (free : Units → Bool) (place : Units → Nat → Units) :
    Nat → Core S → Core S
  | 0, c => c
  | avail + 1, c =>
      match pickOldest c.sq fun e => runs e.inst.opcode with
      | none => c
      | some oldest =>
          fireInto runs free place avail <|
            if free c.units then
              { c with
                units := place c.units oldest.destTag
                sq := markBusy c.sq oldest.destTag
                log := c.log ++ [.fired oldest.inst] }
            else c

/-- ALUs run branches too. -/
def fireAlu (c : Core S) : Core S :=
  fireInto (fun op => op = .alu ∨ op = .branch) (fun units => units.alu.any (·.isNone))
    (fun units tag => { units with alu := Memory.modifyFirst (·.isNone) (fun _ => some tag) units.alu })
    (c.units.alu.countP (·.isNone)) c

/-- Only the first stage of a multiplier must be free. -/
def fireMul (c : Core S) : Core S :=
  fireInto (fun op => op = .mul) (fun units => units.mul.any (·.stage1.isNone))
    (fun units tag => { units with
      mul := Memory.modifyFirst (·.stage1.isNone) (fun u => { u with stage1 := some tag }) units.mul })
    (c.units.mul.countP (·.stage1.isNone)) c

def memReq (c : Core S) (inst : Inst) : Memory.MemReq :=
  let op : Memory.Op := if inst.opcode = .load then .read else .write
  { addr := inst.memAddr, op, pc := inst.pc, originatingOp := op, tid := c.activeTid }

/-- The load-store units take loads and one store a cycle; an issue that fails, or a
    load that meets a full MSHR table, ends the cycle's attempts. -/
def fireLsuLoop : Nat → Bool → Core S → Except String (Core S)
  | 0, _, c => .ok c
  | avail + 1, storeFired, c =>
      match pickOldest c.sq fun e => e.inst.opcode.isMem && !ambiguous c.sq e with
      | none => .ok c
      | some oldest =>
          if oldest.inst.opcode = .store ∧ storeFired then .ok c
          else if oldest.inst.opcode = .load ∧ S.l1Full c.outside then .ok c
          else if !c.units.lsu.any (·.isNone) then fireLsuLoop avail storeFired c
          else
            match S.l1Issue c.outside (c.memReq oldest.inst) with
            | .error fault => .error fault
            | .ok (none, outside) => .ok { c with outside, log := c.log ++ [.called oldest.inst] }
            | .ok (some mshrId, outside) =>
                let isLoad : Bool := oldest.inst.opcode = .load
                fireLsuLoop avail (storeFired || !isLoad) { c with
                  outside
                  units := { c.units with
                    lsu := Memory.modifyFirst (·.isNone)
                      (fun _ => some { isLoad, mshrId, sched := oldest.destTag }) c.units.lsu }
                  sq := markBusy c.sq oldest.destTag
                  log := c.log ++ [.called oldest.inst] ++ [.fired oldest.inst] }

def fireLsu (c : Core S) : Except String (Core S) :=
  fireLsuLoop (c.units.lsu.countP (·.isNone)) false c

def stageSchedule (c : Core S) : Except String (Core S) := c.fireAlu.fireMul.fireLsu

/-! ## Dispatch -/

/-- Rename one instruction into the scheduling queue and the reorder buffer. The
    sources are read before the destination is marked. -/
def dispatchOne (c : Core S) (inst : Inst) (rest : List Inst) : Core S :=
  let destTag := c.rat.nextTag
  let r1 := c.rat.read inst.src1
  let r2 := c.rat.read inst.src2
  { c with
    dispq := rest
    rat := { c.rat with nextTag := destTag + 1 }.writeUse inst.dest destTag
    rob := c.rob.push { destReg := inst.dest, destTag, inst }
    sq := c.sq ++ [{ inst, destTag
                     src1 := { tag := r1.tag, ready := r1.ready }
                     src2 := { tag := r2.tag, ready := r2.ready }
                     robIdx := c.rob.tail }]
    log := c.log ++ [.dispatched inst destTag] }

def dispatchLoop : Nat → Core S → Core S
  | 0, c => c
  | width + 1, c =>
      match c.dispq with
      | [] => c
      | inst :: rest =>
          if c.sq.length ≥ c.cfg.schedqCapacity ∨ c.rob.full then c
          else dispatchLoop width (c.dispatchOne inst rest)

def stageDispatch (c : Core S) : Core S := dispatchLoop c.cfg.fetchWidth c

/-! ## Fetch -/

/-- Classify a record and, for a branch, ask the predictor. -/
def predicted (outside : S.State) (rec : Record) (dynCount : Nat) : Inst × S.State :=
  let inst := classify rec dynCount
  if inst.opcode = .branch then
    let (predictedTaken, outside) :=
      S.predict outside { ip := inst.pc, taken := inst.branchTaken, instNum := dynCount }
    ({ inst with predictedTaken, mispredict := predictedTaken ≠ inst.branchTaken }, outside)
  else (inst, outside)

/-- A record that the reader delivered goes to the dispatch queue. -/
def fetchOne (c : Core S) (rec : Record) (outside : S.State) : Core S :=
  let (inst, outside) := predicted outside rec (c.dynCount + 1)
  { c with
    outside
    dynCount := c.dynCount + 1
    dispq := c.dispq ++ [inst]
    inMispred := c.inMispred || inst.mispredict
    stats := { c.stats with instructionsFetched := c.stats.instructionsFetched + 1 }
    log := c.log ++ [.fetched rec inst] }

/-- The fetch loop, with the stall reason of a cycle that fetched nothing; a loop
    without a turn counts as a full dispatch queue. -/
def fetchLoop : Nat → Bool → Core S → Except String (Option FetchStall × Core S)
  | 0, fetched, c => .ok (if fetched then none else some .dispqFull, c)
  | width + 1, fetched, c =>
      if c.dispq.length ≥ c.cfg.dispqCapacity then
        .ok (if fetched then none else some .dispqFull, c)
      else
        match S.next c.outside with
        | .error fault => .error fault
        | .ok (none, outside) =>
            if S.blocked outside then .ok (if fetched then none else some .sync, { c with outside })
            else .ok (if fetched then none else some .eof, { c with outside, eof := true })
        | .ok (some rec, outside) =>
            let c := c.fetchOne rec outside
            if c.inMispred then .ok (none, c) else fetchLoop width true c

def creditFetch (stall : Option FetchStall) (stats : OooStats) : OooStats :=
  match stall with
  | some .dispqFull => { stats with fetchStallDispqFull := stats.fetchStallDispqFull + 1 }
  | some .sync => { stats with fetchStallSync := stats.fetchStallSync + 1 }
  | some .eof => { stats with fetchStallEof := stats.fetchStallEof + 1 }
  | none => stats

def stageFetch (c : Core S) : Except String (Core S) :=
  if c.inMispred then
    .ok { c with stats := { c.stats with fetchStallMispred := c.stats.fetchStallMispred + 1 } }
  else if c.eof then
    .ok { c with stats := { c.stats with fetchStallEof := c.stats.fetchStallEof + 1 } }
  else
    match fetchLoop c.cfg.fetchWidth false c with
    | .error fault => .error fault
    | .ok (stall, c) => .ok { c with stats := creditFetch stall c.stats }

/-! ## One cycle -/

def progressSig (c : Core S) : ProgressSig :=
  { retired := c.stats.instructionsRetired, fetched := c.stats.instructionsFetched
    rob := c.rob.count, sq := c.sq.length, dispq := c.dispq.length }

/-- The watchdog counts the cycles without progress; the flag says that it fired. -/
def watchdog (c : Core S) : Bool × Core S :=
  if c.cfg.deadlockThresholdCycles = 0 then (false, c)
  else if c.lastProgressSig = some c.progressSig then
    let c := { c with stallCycles := c.stallCycles + 1 }
    if c.stallCycles ≥ c.cfg.deadlockThresholdCycles then
      (true, { c with
        stats := { c.stats with deadlocked := true, stallCyclesAtAbort := c.stallCycles } })
    else (false, c)
  else (false, { c with stallCycles := 0, lastProgressSig := some c.progressSig })

/-- The trace is exhausted and nothing is left in a queue. -/
def drained (c : Core S) : Bool := c.eof && c.dispq.isEmpty && c.rob.empty && c.sq.isEmpty

/-- The stages in reverse program order. A mispredicted retire skips the others. -/
def stages (c : Core S) : Except String (Core S) := do
  let (mispredRetired, c) ← c.stageStateUpdate
  if mispredRetired then
    .ok { c with stats := { c.stats with branchMispredictions := c.stats.branchMispredictions + 1 } }
  else do
    let c ← c.stageExec
    let c ← c.stageSchedule
    c.stageDispatch.stageFetch

/-- Count the cycle and tick the cache. -/
def closeCycle (c : Core S) : Core S :=
  { c with
    outside := S.l1Tick c.outside
    stats := { c.stats with cycles := c.stats.cycles + 1 } }

/-- `OooCore::tick`: whether there is still work to do. -/
def tick (c : Core S) : Except String (Bool × Core S) := do
  let c ← c.stages
  let (fired, c) := c.closeCycle.watchdog
  .ok (!fired && !c.drained, c)

end Core

/-! ## Runs -/

/-- A cycle of the core, or anything else that changes what is around it. -/
inductive Action (S : Surroundings) where
  | tick
  | outside (state : S.State)

/-- A core among surroundings that change as they like between its cycles. -/
def machine (S : Surroundings) : Machine (Core S) (Action S) String where
  step c
    | .tick => c.tick.map (·.2)
    | .outside state => .ok { c with outside := state }

end Ooo
