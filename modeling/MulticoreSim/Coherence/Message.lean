import Mathlib.Logic.Function.Basic
import Mathlib.Algebra.Group.Nat.Defs

/-! # Messages and settings of the coherence network

The message kinds, the network message, the settings every component reads and
the counters they bump.
-/

namespace Coherence

abbrev NodeId := Nat
abbrev BlockId := Nat
abbrev Timestamp := Nat

/-- `static_cast<NodeId>(-1)`. -/
def noNode : NodeId := 2 ^ 64 - 1

inductive MessageKind where
  | nop
  | load
  | store
  | gets
  | getm
  | data
  | dataWb
  | reqInvalid
  | invack
  | ack
  | dataE
  | getx
  | dataF
  | recallGotoI
  | recallGotoS
  deriving DecidableEq, Repr

/-- `message_kind_str`. -/
def MessageKind.str : MessageKind → String
  | .nop => "NOP"
  | .load => "LOAD"
  | .store => "STORE"
  | .gets => "GETS"
  | .getm => "GETM"
  | .data => "DATA"
  | .dataWb => "DATA_WB"
  | .reqInvalid => "REQ_INVALID"
  | .invack => "INVACK"
  | .ack => "ACK"
  | .dataE => "DATA_E"
  | .getx => "GETX"
  | .dataF => "DATA_F"
  | .recallGotoI => "RECALL_GOTO_I"
  | .recallGotoS => "RECALL_GOTO_S"

/-- The kinds that answer a node's own request. -/
def MessageKind.IsGrant (k : MessageKind) : Prop := k = .data ∨ k = .dataE ∨ k = .ack

instance (k : MessageKind) : Decidable k.IsGrant := by
  unfold MessageKind.IsGrant
  infer_instance

inductive Protocol where
  | MI | MSI | MESI | MOSI | MOESIF
  deriving DecidableEq, Repr

inductive CacheMode where
  | privateL2 | sharedLls
  deriving DecidableEq, Repr

structure Settings where
  protocol : Protocol := .MSI
  /-- CPUs only; the directory is one more node, with this id. -/
  numProcs : NodeId := 4
  memLatency : Nat := 100
  blockSizeLog2 : Nat := 6
  linkWidthLog2 : Nat := 3
  headerFlits : Nat := 0
  payloadFlits : Nat := 0
  cacheMode : CacheMode := .privateL2
  llsBlocks : Nat := 0
  llsAssoc : Nat := 16
  llsHitLatency : Nat := 10
  deriving DecidableEq, Repr

structure Message where
  src : NodeId
  dst : NodeId
  block : BlockId
  kind : MessageKind
  flits : Nat
  dirty : Bool := false
  deriving DecidableEq, Repr

/-- The `Message` constructor: a header, and a payload on data-bearing kinds. -/
def Message.make (src dst : NodeId) (block : BlockId) (kind : MessageKind) (s : Settings) : Message :=
  { src, dst, block, kind
    flits := s.headerFlits +
      if kind = .data ∨ kind = .dataE ∨ kind = .dataF ∨ kind = .dataWb then s.payloadFlits else 0 }

section

variable (src dst : NodeId) (block : BlockId) (kind : MessageKind) (s : Settings)

@[simp] theorem Message.make_src : (Message.make src dst block kind s).src = src := rfl

@[simp] theorem Message.make_dst : (Message.make src dst block kind s).dst = dst := rfl

@[simp] theorem Message.make_block : (Message.make src dst block kind s).block = block := rfl

@[simp] theorem Message.make_kind : (Message.make src dst block kind s).kind = kind := rfl

@[simp] theorem Message.make_dirty : (Message.make src dst block kind s).dirty = false := rfl

end

structure CoherenceStats where
  cacheMisses : Nat := 0
  cacheAccesses : Nat := 0
  silentUpgrades : Nat := 0
  c2cTransfers : Nat := 0
  memoryReads : Nat := 0
  memoryWrites : Nat := 0
  llsAccesses : Nat := 0
  llsHits : Nat := 0
  llsMisses : Nat := 0
  llsEvictions : Nat := 0
  deriving DecidableEq, Repr

end Coherence
