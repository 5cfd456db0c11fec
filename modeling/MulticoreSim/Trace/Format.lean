import MulticoreSim.Library.ByteStream
import MulticoreSim.Ooo.Inst

/-! # Trace files

Records and the file header, and their bytes on disk: the standard records of 64
bytes, and the CasimV2 stream of a header of 32 bytes and tagged records of 64.
-/

namespace Trace

open ByteStream
open Ooo (SyncKind)

inductive Variant where
  | standard | casimV2
  deriving DecidableEq, Repr

/-- An instruction record, which has no sync token. -/
structure Record where
  ip : BitVec 64 := 0
  isBranch : Bool := false
  branchTaken : Bool := false
  isMul : Bool := false
  destinationRegisters : List.Vector Byte 2 := .replicate 2 0
  sourceRegisters : List.Vector Byte 4 := .replicate 4 0
  destinationMemory : List.Vector (BitVec 64) 2 := .replicate 2 0
  sourceMemory : List.Vector (BitVec 64) 4 := .replicate 4 0
  deriving DecidableEq

structure SyncRecord where
  kind : SyncKind := .lockAcquire
  syncObjectAddr : BitVec 64 := 0
  sequenceNo : BitVec 64 := 0
  extraArg : BitVec 64 := 0
  ip : BitVec 64 := 0
  timestampNs : BitVec 64 := 0
  deriving DecidableEq

inductive LifecycleKind where
  | threadStart
  | threadExit
  | threadSpawn
  | threadJoin
  /-- A byte that names no kind. -/
  | other (code : Nat)
  deriving DecidableEq, Repr

structure LifecycleRecord where
  kind : LifecycleKind := .threadStart
  peerTid : BitVec 32 := 0
  ip : BitVec 64 := 0
  deriving DecidableEq

/-- What `next_any` returns, but for the end of the stream. -/
inductive AnyRecord where
  | instr (r : Record)
  | sync (s : SyncRecord)
  | lifecycle (l : LifecycleRecord)
  deriving DecidableEq

structure FileHeader where
  formatVersion : BitVec 16 := 2
  headerSize : BitVec 16 := 32
  threadId : BitVec 32 := 0
  threadCount : BitVec 32 := 1
  programUid : BitVec 64 := 0
  deriving DecidableEq

/-! ## Kinds as bytes -/

def syncCode : SyncKind → Byte
  | .lockAcquire => 1
  | .lockRelease => 2
  | .barrierArrive => 3
  | .barrierLeave => 4
  | .atomicRMW => 5
  | .atomicLoad => 6
  | .atomicStore => 7
  | .condWait => 8
  | .condSignal => 9
  | .condBroadcast => 10
  | .other code => BitVec.ofNat 8 code

/-- `static_cast<SyncKind>`. -/
def syncKind (b : Byte) : SyncKind :=
  match b.toNat with
  | 1 => .lockAcquire
  | 2 => .lockRelease
  | 3 => .barrierArrive
  | 4 => .barrierLeave
  | 5 => .atomicRMW
  | 6 => .atomicLoad
  | 7 => .atomicStore
  | 8 => .condWait
  | 9 => .condSignal
  | 10 => .condBroadcast
  | code => .other code

def lifecycleCode : LifecycleKind → Byte
  | .threadStart => 1
  | .threadExit => 2
  | .threadSpawn => 3
  | .threadJoin => 4
  | .other code => BitVec.ofNat 8 code

/-- `static_cast<LifecycleKind>`. -/
def lifecycleKind (b : Byte) : LifecycleKind :=
  match b.toNat with
  | 1 => .threadStart
  | 2 => .threadExit
  | 3 => .threadSpawn
  | 4 => .threadJoin
  | code => .other code

/-- A record whose kind, if it has one, is one of the named. -/
def AnyRecord.Valid : AnyRecord → Prop
  | .instr _ => True
  | .sync s => ∀ code, s.kind ≠ .other code
  | .lifecycle l => ∀ code, l.kind ≠ .other code

theorem syncKind_code {kind : SyncKind} (valid : ∀ code, kind ≠ .other code) :
    syncKind (syncCode kind) = kind := by
  cases kind <;> first | rfl | exact absurd rfl (valid _)

theorem lifecycleKind_code {kind : LifecycleKind} (valid : ∀ code, kind ≠ .other code) :
    lifecycleKind (lifecycleCode kind) = kind := by
  cases kind <;> first | rfl | exact absurd rfl (valid _)

/-! ## Words -/

def putU8 : Byte → List Byte := putWord 1
def putU16 : BitVec 16 → List Byte := putWord 2
def putU32 : BitVec 32 → List Byte := putWord 4
def putU64 : BitVec 64 → List Byte := putWord 8

def getU8 : Get Byte := getWord 1
def getU16 : Get (BitVec 16) := getWord 2
def getU32 : Get (BitVec 32) := getWord 4
def getU64 : Get (BitVec 64) := getWord 8

/-- `b ? 1 : 0`. -/
def flag (b : Bool) : Byte := if b then 1 else 0

/-! ## Standard records -/

def writeStandard (r : Record) : List Byte :=
  List.flatten [putU64 r.ip, putU8 (flag r.isBranch), putU8 (flag r.branchTaken),
    putMany putU8 r.destinationRegisters, putMany putU8 r.sourceRegisters,
    putMany putU64 r.destinationMemory, putMany putU64 r.sourceMemory]

/-- Past the address, the record must be whole. -/
def readStandardRest (ip : BitVec 64) : Read Record := do
  let isBranch ← demand "truncated record: missing is_branch" getU8
  let branchTaken ← demand "truncated record: missing branch_taken" getU8
  let destinationRegisters ← demand "truncated record: destination_registers" (getMany getU8 2)
  let sourceRegisters ← demand "truncated record: source_registers" (getMany getU8 4)
  let destinationMemory ← demand "truncated record: destination_memory" (getMany getU64 2)
  let sourceMemory ← demand "truncated record: source_memory" (getMany getU64 4)
  return {
    ip, isBranch := isBranch ≠ 0, branchTaken := branchTaken ≠ 0, isMul := false
    destinationRegisters, sourceRegisters, destinationMemory, sourceMemory }

/-- `none` at the end of the stream. -/
def readStandard (bytes : List Byte) : Except String (Option (Record × List Byte)) :=
  match getU64 bytes with
  | none => .ok none
  | some (ip, bytes) => ((readStandardRest ip).run bytes).map some

/-! ## CasimV2 records -/

/-- The type tag and the payload. -/
def writeCasimv2InstrPacked (r : Record) : List Byte :=
  let flags := (if r.isBranch then 1 else 0) ||| (if r.branchTaken then 2 else 0) |||
    (if r.isMul then 4 else 0)
  List.flatten [putU8 0, putU8 flags, putU64 r.ip, putMany putU8 r.destinationRegisters,
    putMany putU8 r.sourceRegisters, putMany putU64 r.destinationMemory,
    putMany putU64 r.sourceMemory]

def readCasimv2InstrPayload : Read Record := do
  let flags ← demand "truncated v2 instr: flags" getU8
  let ip ← demand "truncated v2 instr: ip" getU64
  let destinationRegisters ← demand "truncated v2 instr: dst regs" (getMany getU8 2)
  let sourceRegisters ← demand "truncated v2 instr: src regs" (getMany getU8 4)
  let destinationMemory ← demand "truncated v2 instr: dst mem" (getMany getU64 2)
  let sourceMemory ← demand "truncated v2 instr: src mem" (getMany getU64 4)
  return {
    ip, isBranch := flags &&& 1 ≠ 0, branchTaken := flags &&& 2 ≠ 0, isMul := flags &&& 4 ≠ 0
    destinationRegisters, sourceRegisters, destinationMemory, sourceMemory }

def writeCasimv2Sync (s : SyncRecord) : List Byte :=
  List.flatten [putU8 1, putU8 (syncCode s.kind), putPad 6, putU64 s.syncObjectAddr,
    putU64 s.sequenceNo, putU64 s.extraArg, putU64 s.ip, putU64 s.timestampNs, putPad 16]

def readCasimv2SyncPayload : Read SyncRecord := do
  let kind ← demand "truncated v2 sync: kind" getU8
  demand "truncated v2 sync: reserved" (skip 6)
  let syncObjectAddr ← demand "truncated v2 sync: object" getU64
  let sequenceNo ← demand "truncated v2 sync: seq" getU64
  let extraArg ← demand "truncated v2 sync: extra" getU64
  let ip ← demand "truncated v2 sync: ip" getU64
  let timestampNs ← demand "truncated v2 sync: ts" getU64
  demand "truncated v2 sync: tail pad" (skip 16)
  return { kind := syncKind kind, syncObjectAddr, sequenceNo, extraArg, ip, timestampNs }

def writeCasimv2Lifecycle (l : LifecycleRecord) : List Byte :=
  List.flatten [putU8 2, putU8 (lifecycleCode l.kind), putPad 2, putU32 l.peerTid, putU64 l.ip,
    putPad 48]

def readCasimv2LifecyclePayload : Read LifecycleRecord := do
  let kind ← demand "truncated v2 lifecycle: kind" getU8
  demand "truncated v2 lifecycle: rsv" (skip 2)
  let peerTid ← demand "truncated v2 lifecycle: peer_tid" getU32
  let ip ← demand "truncated v2 lifecycle: ip" getU64
  demand "truncated v2 lifecycle: tail pad" (skip 48)
  return { kind := lifecycleKind kind, peerTid, ip }

/-! ## The file header -/

/-- `CASIMTR2`. -/
def casimV2Magic : List Byte := [67, 65, 83, 73, 77, 84, 82, 50]

def writeCasimv2Header (h : FileHeader) : List Byte :=
  List.flatten [casimV2Magic, putU16 h.formatVersion, putU16 h.headerSize, putU32 h.threadId,
    putU32 h.threadCount, putU64 h.programUid, putPad 4]

/-- Past the magic. The header may be longer than the fields that are known. -/
def readCasimv2HeaderRest : Read FileHeader := do
  let formatVersion ← demand "v2 header: format_version" getU16
  let headerSize ← demand "v2 header: header_size" getU16
  let threadId ← demand "v2 header: thread_id" getU32
  let threadCount ← demand "v2 header: thread_count" getU32
  let programUid ← demand "v2 header: program_uid" getU64
  if headerSize.toNat < 32 then throw "v2 header: header_size shorter than required"
  demand "v2 header: truncated extension bytes" (skip (headerSize.toNat - 28))
  return { formatVersion, headerSize, threadId, threadCount, programUid }

/-- `none` where the magic is missing. -/
def readCasimv2Header (bytes : List Byte) : Except String (Option (FileHeader × List Byte)) :=
  if bytes.take 8 = casimV2Magic then (readCasimv2HeaderRest.run (bytes.drop 8)).map some
  else .ok none

/-! ## What the readers read back -/

theorem reads_u8 : Reads putU8 getU8 := reads_word 1
theorem reads_u16 : Reads putU16 getU16 := reads_word 2
theorem reads_u32 : Reads putU32 getU32 := reads_word 4
theorem reads_u64 : Reads putU64 getU64 := reads_word 8

@[simp] theorem length_putU8 (v : Byte) : (putU8 v).length = 1 := length_putWord 1 v
@[simp] theorem length_putU16 (v : BitVec 16) : (putU16 v).length = 2 := length_putWord 2 v
@[simp] theorem length_putU32 (v : BitVec 32) : (putU32 v).length = 4 := length_putWord 4 v
@[simp] theorem length_putU64 (v : BitVec 64) : (putU64 v).length = 8 := length_putWord 8 v

/-- The three flags of an instruction share a byte. -/
theorem flags_apart : ∀ branch taken mul : Bool,
    let flags : Byte := (if branch then 1 else 0) ||| (if taken then 2 else 0) |||
      (if mul then 4 else 0)
    decide (flags &&& 1 ≠ 0) = branch ∧ decide (flags &&& 2 ≠ 0) = taken ∧
      decide (flags &&& 4 ≠ 0) = mul := by
  decide

theorem yields_instr (r : Record) : ∃ payload,
    writeCasimv2InstrPacked r = putU8 0 ++ payload ∧ Yields readCasimv2InstrPayload payload r := by
  refine ⟨_, rfl, ?_⟩
  refine (Yields.demand reads_u8 _ _).bind <| (Yields.demand reads_u64 _ _).bind <|
    (Yields.demand (reads_many reads_u8 2) _ _).bind <|
    (Yields.demand (reads_many reads_u8 4) _ _).bind <|
    (Yields.demand (reads_many reads_u64 2) _ _).bind <|
    (Yields.demand (reads_many reads_u64 4) _ _).bind ?_
  obtain ⟨branch, taken, mul⟩ := flags_apart r.isBranch r.branchTaken r.isMul
  rw [branch, taken, mul]
  exact Yields.pure r

theorem yields_sync (s : SyncRecord) (valid : ∀ code, s.kind ≠ .other code) : ∃ payload,
    writeCasimv2Sync s = putU8 1 ++ payload ∧ Yields readCasimv2SyncPayload payload s := by
  refine ⟨_, rfl, ?_⟩
  refine (Yields.demand reads_u8 _ _).bind <| (Yields.pad _ 6).bind <|
    (Yields.demand reads_u64 _ _).bind <| (Yields.demand reads_u64 _ _).bind <|
    (Yields.demand reads_u64 _ _).bind <| (Yields.demand reads_u64 _ _).bind <|
    (Yields.demand reads_u64 _ _).bind <| (Yields.pad _ 16).bind ?_
  rw [syncKind_code valid]
  exact Yields.pure _

theorem yields_lifecycle (l : LifecycleRecord) (valid : ∀ code, l.kind ≠ .other code) :
    ∃ payload, writeCasimv2Lifecycle l = putU8 2 ++ payload ∧
      Yields readCasimv2LifecyclePayload payload l := by
  refine ⟨_, rfl, ?_⟩
  refine (Yields.demand reads_u8 _ _).bind <| (Yields.pad _ 2).bind <|
    (Yields.demand reads_u32 _ _).bind <| (Yields.demand reads_u64 _ _).bind <|
    (Yields.pad _ 48).bind ?_
  rw [lifecycleKind_code valid]
  exact Yields.pure _

theorem length_instr (r : Record) : (writeCasimv2InstrPacked r).length = 64 := by
  simp [writeCasimv2InstrPacked, length_putMany length_putU8, length_putMany length_putU64]

theorem length_sync (s : SyncRecord) : (writeCasimv2Sync s).length = 64 := by
  simp [writeCasimv2Sync]

theorem length_lifecycle (l : LifecycleRecord) : (writeCasimv2Lifecycle l).length = 64 := by
  simp [writeCasimv2Lifecycle]

theorem length_header (h : FileHeader) : (writeCasimv2Header h).length = 32 := by
  simp [writeCasimv2Header, casimV2Magic]

/-- A header that says how long it is is read back. -/
theorem read_header {h : FileHeader} (size : h.headerSize = 32) (rest : List Byte) :
    readCasimv2Header (writeCasimv2Header h ++ rest) = .ok (some (h, rest)) := by
  have long : ¬ h.headerSize.toNat < 32 := by
    rw [size]
    decide
  have padding : h.headerSize.toNat - 28 = 4 := by
    rw [size]
    rfl
  have whole : Yields readCasimv2HeaderRest (List.flatten [putU16 h.formatVersion,
      putU16 h.headerSize, putU32 h.threadId, putU32 h.threadCount, putU64 h.programUid,
      putPad 4]) h := by
    refine (Yields.demand reads_u16 _ _).bind <| (Yields.demand reads_u16 _ _).bind <|
      (Yields.demand reads_u32 _ _).bind <| (Yields.demand reads_u32 _ _).bind <|
      (Yields.demand reads_u64 _ _).bind ?_
    simp only [long, if_false, padding]
    exact (Yields.pad _ 4).bind (Yields.pure h)
  have front : writeCasimv2Header h ++ rest = casimV2Magic ++ (List.flatten [putU16 h.formatVersion,
      putU16 h.headerSize, putU32 h.threadId, putU32 h.threadCount, putU64 h.programUid,
      putPad 4] ++ rest) := List.append_assoc _ _ _
  have magic : casimV2Magic.length = 8 := rfl
  rw [front, readCasimv2Header, if_pos (List.take_left' magic), List.drop_left' magic, whole]
  rfl

end Trace
