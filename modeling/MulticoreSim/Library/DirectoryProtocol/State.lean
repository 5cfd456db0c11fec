import Mathlib.Data.Finset.Card
import Mathlib.Data.Finset.Insert
import Mathlib.Data.Finset.Filter

/-! # One line under a blocking directory

The abstract state of one memory line shared by the nodes `ι`: for each node its
rights, the progress of its one outstanding request and of the one order the
directory may have sent it, and for the directory its mode and member set.

Messages are not listed. A node's request is somewhere (`Phase`), and so is an
order (`Probe`); which channel holds them is the business of a refinement.
-/

namespace DirectoryProtocol

/-- What a node may do with its copy of the line. -/
inductive Right where
  | none | shared | owned | exclusive
  deriving DecidableEq, Repr

/-- What a node is waiting to be allowed to do. -/
inductive Want where
  | nothing | read | write
  deriving DecidableEq, Repr

/-- A request to the directory. `upgrade` is sent by an exclusive holder that
    wants to write. -/
inductive Request where
  | read | write | upgrade
  deriving DecidableEq, Repr

/-- The want a request leaves its sender with. -/
def Request.want : Request → Want
  | .read => .read
  | .write | .upgrade => .write

/-- The directory's answer to a request. -/
inductive Grant where
  | data | cleanExclusive | ack
  deriving DecidableEq, Repr

/-- The right a grant carries for a node with the given want. -/
def Grant.right : Grant → Want → Right
  | .data, .read => .shared
  | _, _ => .exclusive

/-- An order to a member: drop a shared copy, give an owned one up, or keep only
    a shared or an owned copy. `keep` tells an owner whether it stays dirty. -/
inductive Order where
  | invalidate | giveBack | share | own (keep : Bool)
  deriving DecidableEq, Repr

/-- A member's answer to an order. -/
inductive Reply where
  | ack | data
  deriving DecidableEq, Repr

/-- Where a node's request is. -/
inductive Phase where
  /-- No request outstanding. -/
  | rest
  /-- On its way to the directory, or queued there. -/
  | asked (request : Request)
  /-- Taken up by the directory, which waits for the members first. -/
  | waiting
  /-- Being fetched from memory for this node. -/
  | fetching (grant : Grant)
  /-- Answered, the answer on its way. -/
  | granted (grant : Grant)
  deriving DecidableEq, Repr

/-- Where an order to a node, or the node's answer, is. -/
inductive Probe where
  | idle
  | sent (order : Order)
  | answered (reply : Reply)
  deriving DecidableEq, Repr

structure Slot where
  right : Right := .none
  want : Want := .nothing
  phase : Phase := .rest
  probe : Probe := .idle
  /-- Eviction notices of this node the directory has not taken in yet. -/
  writebacks : Nat := 0
  /-- The node holds the line where its processor can use it. -/
  resident : Bool := false
  deriving DecidableEq, Repr

/-- The directory's mode. Holders, owners and requesters are named in it. -/
inductive Mode (ι : Type) where
  | idle
  /-- One exclusive holder; `clean` while it has not been allowed to write. -/
  | exclusive (holder : ι) (clean : Bool)
  | shared
  /-- One owner beside sharers; `clean` when memory is up to date. -/
  | owned (owner : ι) (clean : Bool)
  /-- The holder is told to give its copy up for the requester. -/
  | takeover (holder requester : ι)
  /-- The holder is told to keep a shared copy beside the requester's. -/
  | downgrade (holder requester : ι)
  /-- The holder or owner is told to serve the requester as owner. -/
  | forward (owner requester : ι) (clean : Bool)
  /-- The sharers are invalidated for the requester. -/
  | invalidate (requester : ι)
  /-- The sharers of an owned line are invalidated for the requester; then, once
      `recalled`, the owner is told to give its copy up. -/
  | reclaim (owner requester : ι) (clean recalled : Bool)
  deriving DecidableEq, Repr

/-- The node a transient mode works for. -/
def Mode.requester {ι : Type} : Mode ι → Option ι
  | .takeover _ r | .downgrade _ r | .forward _ r _ | .invalidate r | .reclaim _ r _ _ => some r
  | .idle | .exclusive .. | .shared | .owned .. => none

/-- The owner an owned line's directory remembers. -/
def Mode.owner {ι : Type} : Mode ι → Option ι
  | .owned o _ | .forward o _ _ | .reclaim o _ _ _ => some o
  | _ => none

/-- The want a transient mode serves. -/
def Mode.serves {ι : Type} : Mode ι → Want
  | .downgrade .. | .forward .. => .read
  | _ => .write

/-- One line: the directory's mode and members, and every node's slot. -/
structure Block (ι : Type) where
  mode : Mode ι
  members : Finset ι
  slot : ι → Slot

/-- Nobody has heard of the line. -/
def Block.initial (ι : Type) : Block ι :=
  { mode := .idle, members := ∅, slot := fun _ => {} }

namespace Slot

/-- The right a node has, or will have once its grant arrives. -/
def effective (s : Slot) : Right :=
  match s.phase with
  | .fetching g | .granted g => g.right s.want
  | _ => s.right

/-- A grant for this node is in memory or on its way. -/
def Promised (s : Slot) : Prop := ∃ g, s.phase = .fetching g ∨ s.phase = .granted g

/-- No copy and none coming. -/
def Gone (s : Slot) : Prop := s.right = .none ∧ ¬ s.Promised

/-- Undisturbed, with the given right. -/
def Holds (s : Slot) (right : Right) : Prop := s.probe = .idle ∧ s.effective = right

/-- A sharer on its way out. -/
def Leaving (s : Slot) : Prop :=
  s.probe = .sent .invalidate ∧ s.effective = .shared ∨
    s.probe = .answered .ack ∧ s.Gone

/-- A holder or owner on its way out. -/
def Yielding (s : Slot) (right : Right) : Prop :=
  s.probe = .sent .giveBack ∧ s.effective = right ∨ s.probe = .answered .data ∧ s.Gone

/-- A holder told to keep a shared copy. -/
def Sharing (s : Slot) : Prop :=
  s.probe = .sent .share ∧ s.effective = .exclusive ∨
    s.probe = .answered .data ∧ s.right = .shared ∧ ¬ s.Promised

/-- A holder or owner told to serve a reader. -/
def Serving (s : Slot) : Prop :=
  (∃ keep, s.probe = .sent (.own keep)) ∧
      (s.effective = .exclusive ∨ s.effective = .owned) ∨
    s.probe = .answered .data ∧ s.right = .owned ∧ ¬ s.Promised

/-- A node whose invalidation has not been counted in yet. -/
def Owing (s : Slot) : Prop := s.probe = .sent .invalidate ∨ s.probe = .answered .ack

instance (s : Slot) : Decidable s.Owing := by unfold Owing; infer_instance

end Slot

variable {ι : Type} [DecidableEq ι]

/-- The members the directory still waits for an invalidation answer from. -/
def Block.owing (B : Block ι) : Finset ι := B.members.filter fun i => (B.slot i).Owing

/-- Rewrite one node's slot. -/
def Block.modify (B : Block ι) (i : ι) (f : Slot → Slot) : Block ι :=
  { B with slot := fun j => if j = i then f (B.slot j) else B.slot j }

/-- Send one order to every node of a set. -/
def Block.order (B : Block ι) (targets : Finset ι) (o : Order) : Block ι :=
  { B with slot := fun j => if j ∈ targets then { B.slot j with probe := .sent o } else B.slot j }

namespace Block

@[simp] theorem modify_mode (B : Block ι) (i : ι) (f : Slot → Slot) :
    (B.modify i f).mode = B.mode := rfl

@[simp] theorem modify_members (B : Block ι) (i : ι) (f : Slot → Slot) :
    (B.modify i f).members = B.members := rfl

theorem modify_slot (B : Block ι) (i : ι) (f : Slot → Slot) (j : ι) :
    (B.modify i f).slot j = if j = i then f (B.slot j) else B.slot j := rfl

@[simp] theorem modify_slot_self (B : Block ι) (i : ι) (f : Slot → Slot) :
    (B.modify i f).slot i = f (B.slot i) := if_pos rfl

theorem modify_slot_of_ne (B : Block ι) {i j : ι} (f : Slot → Slot) (h : j ≠ i) :
    (B.modify i f).slot j = B.slot j := if_neg h

@[simp] theorem order_mode (B : Block ι) (targets : Finset ι) (o : Order) :
    (B.order targets o).mode = B.mode := rfl

@[simp] theorem order_members (B : Block ι) (targets : Finset ι) (o : Order) :
    (B.order targets o).members = B.members := rfl

theorem order_slot (B : Block ι) (targets : Finset ι) (o : Order) (j : ι) :
    (B.order targets o).slot j =
      if j ∈ targets then { B.slot j with probe := .sent o } else B.slot j := rfl

end Block

end DirectoryProtocol
