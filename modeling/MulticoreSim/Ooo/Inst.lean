import Mathlib.Data.Fin.Basic
import Mathlib.Data.List.Basic

/-! # Trace records and instructions

What a reader delivers, and the instruction a core makes of it.
-/

namespace Ooo

/-- A register number of a trace record. -/
abbrev Reg := Fin 256

instance reg_neZero : @NeZero Nat Zero.ofOfNat0 256 := ⟨by decide⟩

inductive SyncKind where
  | lockAcquire
  | lockRelease
  | barrierArrive
  | barrierLeave
  | atomicRMW
  | atomicLoad
  | atomicStore
  | condWait
  | condSignal
  | condBroadcast
  /-- A byte that names no kind. -/
  | other (code : Nat)
  deriving DecidableEq, Repr

/-- The sync record a pseudo-instruction carries through the pipeline. -/
structure SyncToken where
  kind : SyncKind
  syncObjectAddr : Nat := 0
  sequenceNo : Nat := 0
  extraArg : Nat := 0
  deriving DecidableEq, Repr

structure Record where
  ip : Nat := 0
  isBranch : Bool := false
  branchTaken : Bool := false
  isMul : Bool := false
  destinationRegisters : List Reg := []
  sourceRegisters : List Reg := []
  destinationMemory : List Nat := []
  sourceMemory : List Nat := []
  /-- `has_sync_token` and `sync_token`. -/
  syncToken : Option SyncToken := none
  deriving DecidableEq, Repr

inductive Opcode where
  | alu | mul | load | store | branch
  deriving DecidableEq, Repr

/-- The opcodes that go to a load-store unit. -/
def Opcode.isMem (op : Opcode) : Bool := op = .load ∨ op = .store

structure Inst where
  pc : Nat
  opcode : Opcode := .alu
  /-- `none` is `kNoReg`. -/
  dest : Option Reg := none
  src1 : Option Reg := none
  src2 : Option Reg := none
  memAddr : Nat := 0
  branchTaken : Bool := false
  predictedTaken : Bool := false
  mispredict : Bool := false
  dynCount : Nat
  syncToken : Option SyncToken := none
  deriving DecidableEq, Repr

/-- The addresses of a record. -/
def Record.addresses (rec : Record) : List Nat := rec.sourceMemory ++ rec.destinationMemory

/-- `first_nonzero_reg`. -/
def firstNonzeroReg (regs : List Reg) : Option Reg := regs.find? (· ≠ 0)

/-- `second_nonzero_reg`. -/
def secondNonzeroReg (regs : List Reg) : Option Reg := (regs.filter (· ≠ 0))[1]?

/-- `first_nonzero_addr`. -/
def firstNonzeroAddr (addrs : List Nat) : Nat := (addrs.find? (· ≠ 0)).getD 0

theorem firstNonzeroAddr_mem {addrs : List Nat} (some : firstNonzeroAddr addrs ≠ 0) :
    firstNonzeroAddr addrs ∈ addrs := by
  unfold firstNonzeroAddr at some ⊢
  cases found : addrs.find? (· ≠ 0) with
  | none =>
      rw [found] at some
      exact absurd rfl some
  | some addr => exact List.mem_of_find?_eq_some found

/-- A sync pseudo-record becomes an ALU instruction without operands. -/
def classify (rec : Record) (dynCount : Nat) : Inst :=
  match rec.syncToken with
  | some token => { pc := rec.ip, dynCount, syncToken := some token }
  | none =>
      let storeAddr := firstNonzeroAddr rec.destinationMemory
      let loadAddr := firstNonzeroAddr rec.sourceMemory
      let inst : Inst :=
        { pc := rec.ip, dynCount
          dest := firstNonzeroReg rec.destinationRegisters
          src1 := firstNonzeroReg rec.sourceRegisters
          src2 := secondNonzeroReg rec.sourceRegisters }
      if rec.isBranch then { inst with opcode := .branch, branchTaken := rec.branchTaken }
      else if storeAddr ≠ 0 then { inst with opcode := .store, memAddr := storeAddr }
      else if loadAddr ≠ 0 then { inst with opcode := .load, memAddr := loadAddr }
      else if rec.isMul then { inst with opcode := .mul }
      else inst

@[simp] theorem classify_dynCount (rec : Record) (dynCount : Nat) :
    (classify rec dynCount).dynCount = dynCount := by
  unfold classify
  split
  · rfl
  · simp only
    repeat' split
    all_goals rfl

/-- The address of a memory operation is one of the record's. -/
theorem classify_memAddr (rec : Record) (dynCount : Nat) : (classify rec dynCount).memAddr = 0 ∨
    (classify rec dynCount).memAddr ∈ rec.addresses := by
  unfold classify
  split
  · exact .inl rfl
  · simp only
    split
    · exact .inl rfl
    · split
      · next store => exact .inr (List.mem_append_right _ (firstNonzeroAddr_mem store))
      · split
        · next load => exact .inr (List.mem_append_left _ (firstNonzeroAddr_mem load))
        · split <;> exact .inl rfl

@[simp] theorem classify_syncToken (rec : Record) (dynCount : Nat) :
    (classify rec dynCount).syncToken = rec.syncToken := by
  unfold classify
  split
  · next token here => exact here.symm
  · next plain =>
      simp only
      repeat' split
      all_goals exact plain.symm

/-- A sync pseudo-record is no branch. -/
theorem classify_plain {rec : Record} {dynCount : Nat} (branch : (classify rec dynCount).opcode = .branch) :
    (classify rec dynCount).syncToken = none := by
  unfold classify at branch ⊢
  split
  · next sync =>
      rw [sync] at branch
      cases branch
  · simp only
    repeat' split
    all_goals rfl

@[simp] theorem classify_mispredict (rec : Record) (dynCount : Nat) :
    (classify rec dynCount).mispredict = false := by
  unfold classify
  split
  · rfl
  · simp only
    repeat' split
    all_goals rfl

end Ooo
