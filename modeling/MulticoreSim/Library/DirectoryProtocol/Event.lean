import MulticoreSim.Library.DirectoryProtocol.State

/-! # What can happen to a line

Events of the nodes and of the directory, each with the states it may happen in
(`Block.Enabled`) and its effect (`Block.after`). The directory blocks: while it
works for one requester no other request is taken up, so a directory event
names the mode it starts from.
-/

namespace DirectoryProtocol

/-- Events on one line. The directory events carry the holder, owner and
    requester they are about. -/
inductive Event (ι : Type) where
  /-- A node at rest sends a request. -/
  | ask (i : ι) (request : Request)
  /-- A node takes in its grant. -/
  | accept (i : ι)
  /-- A sharer takes in an invalidation. -/
  | drop (i : ι)
  /-- A holder or owner takes in a recall. -/
  | surrender (i : ι)
  /-- A holder keeps a shared copy. -/
  | share (i : ι)
  /-- A holder or owner stays on as owner. -/
  | own (i : ι) (keep : Bool)
  /-- The line leaves a node's caches and the directory is told. -/
  | evict (i : ι)
  /-- The line leaves a node's caches silently. -/
  | lose (i : ι)
  /-- A node's own agent answers its processor. -/
  | refill (i : ι)
  | grantExclusive (i : ι)
  | grantShared (i : ι)
  | grantClean (i : ι)
  | join (i : ι)
  | promote (holder i : ι)
  | takeover (holder i : ι) (clean : Bool)
  | downgrade (holder i : ι) (clean : Bool)
  | forward (owner i : ι) (clean keep : Bool)
  | takenOver (holder i : ι)
  | downgraded (holder i : ι)
  | forwarded (owner i : ι) (clean : Bool)
  /-- The only sharer may write. -/
  | upgrade (i : ι)
  | invalidate (i : ι)
  /-- An invalidation answer is counted in. -/
  | collect (requester i : ι)
  /-- The requester of an invalidation round is served. -/
  | collected (requester : ι)
  /-- An owned line is wanted exclusively; `all` invalidates the owner as well. -/
  | reclaim (owner i : ι) (clean all : Bool)
  | collectOwned (owner requester i : ι) (clean : Bool)
  /-- The owner was the requester and everybody else is gone. -/
  | upgradeOwner (owner : ι) (clean : Bool)
  /-- Only the owner is left to be told. -/
  | recallOwner (owner requester : ι) (clean : Bool)
  | reclaimed (owner requester : ι) (clean : Bool)
  /-- An eviction notice is taken in. -/
  | writeback (i : ι)
  /-- Memory answers. -/
  | respond (i : ι) (grant : Grant)
  deriving DecidableEq, Repr

namespace Slot

def wait (s : Slot) : Slot := { s with phase := .waiting }
def fetch (g : Grant) (s : Slot) : Slot := { s with phase := .fetching g }
def grant (g : Grant) (s : Slot) : Slot := { s with phase := .granted g }
def send (o : Order) (s : Slot) : Slot := { s with probe := .sent o }
def settle (s : Slot) : Slot := { s with probe := .idle }

def ask (r : Request) (s : Slot) : Slot := { s with want := r.want, phase := .asked r }

def accept (s : Slot) : Slot :=
  { s with right := s.effective, want := .nothing, phase := .rest, resident := true }

def answer (right : Right) (r : Reply) (s : Slot) : Slot :=
  { s with right := right, probe := .answered r, resident := s.resident && right != .none }

def evict (s : Slot) : Slot := { s with resident := false, writebacks := s.writebacks + 1 }
def lose (s : Slot) : Slot := { s with resident := false }
def refill (s : Slot) : Slot := { s with resident := true }
def noted (s : Slot) : Slot := { s with writebacks := s.writebacks - 1 }

end Slot

/-- The mode after a stable member set has shrunk to `members` by node `i`. -/
def Mode.without {ι : Type} [DecidableEq ι] (m : Mode ι) (members : Finset ι) (i : ι) : Mode ι :=
  if members = ∅ then .idle
  else match m with
    | .owned o c => if i = o then .shared else .owned o c
    | m => m

/-- Modes in which requests and eviction notices are taken in. -/
def Mode.Stable {ι : Type} (m : Mode ι) : Prop := m.requester = none

variable {ι : Type} [DecidableEq ι]

namespace Block

/-- Memory owes nobody an answer, so the directory may take up messages. -/
def Quiet (B : Block ι) : Prop := ∀ i g, (B.slot i).phase ≠ .fetching g

/-- Node `i` has asked for `r`. -/
def Asks (B : Block ι) (i : ι) (r : Request) : Prop := (B.slot i).phase = .asked r

/-- Node `i` has asked to write. -/
def AsksWrite (B : Block ι) (i : ι) : Prop := B.Asks i .write ∨ B.Asks i .upgrade

/-- When an event may happen. -/
def Enabled (B : Block ι) : Event ι → Prop
  | .ask i r => (B.slot i).phase = .rest ∧ (r = .read → (B.slot i).right = .none) ∧
      (r = .upgrade → (B.slot i).right = .exclusive)
  | .accept i => ∃ g, (B.slot i).phase = .granted g
  | .drop i => (B.slot i).probe = .sent .invalidate ∧ (B.slot i).right = .shared ∧
      ∀ g, (B.slot i).phase ≠ .granted g
  | .surrender i => (B.slot i).probe = .sent .giveBack ∧
      ((B.slot i).right = .owned ∨ (B.slot i).right = .exclusive) ∧
      ∀ g, (B.slot i).phase ≠ .granted g
  | .share i => (B.slot i).probe = .sent .share ∧ (B.slot i).right = .exclusive ∧
      ∀ g, (B.slot i).phase ≠ .granted g
  | .own i keep => (B.slot i).probe = .sent (.own keep) ∧
      ((B.slot i).right = .owned ∨ (B.slot i).right = .exclusive) ∧
      ∀ g, (B.slot i).phase ≠ .granted g
  | .evict _ | .lose _ => True
  | .refill i => (B.slot i).phase = .rest ∧ (B.slot i).right ≠ .none
  | .grantExclusive i => B.Quiet ∧ B.mode = .idle ∧ B.AsksWrite i
  | .grantShared i | .grantClean i => B.Quiet ∧ B.mode = .idle ∧ B.Asks i .read
  | .join i => B.Quiet ∧ B.mode = .shared ∧ B.Asks i .read
  | .promote h i => B.Quiet ∧ B.mode = .exclusive h true ∧ B.Asks i .upgrade
  | .takeover h i c => B.Quiet ∧ B.mode = .exclusive h c ∧ B.AsksWrite i
  | .downgrade h i c => B.Quiet ∧ B.mode = .exclusive h c ∧ B.Asks i .read
  | .forward o i c _ => B.Quiet ∧ (B.mode = .exclusive o c ∨ B.mode = .owned o c) ∧ B.Asks i .read
  | .takenOver h i => B.Quiet ∧ B.mode = .takeover h i ∧ (B.slot h).probe = .answered .data
  | .downgraded h i => B.Quiet ∧ B.mode = .downgrade h i ∧ (B.slot h).probe = .answered .data
  | .forwarded o i c => B.Quiet ∧ B.mode = .forward o i c ∧ (B.slot o).probe = .answered .data
  | .upgrade i => B.Quiet ∧ B.mode = .shared ∧ B.AsksWrite i ∧ B.members ⊆ {i}
  | .invalidate i => B.Quiet ∧ B.mode = .shared ∧ B.AsksWrite i
  | .collect r i => B.Quiet ∧ B.mode = .invalidate r ∧ (B.slot i).probe = .answered .ack
  | .collected r => B.Quiet ∧ B.mode = .invalidate r ∧ B.owing = ∅
  | .reclaim o i c all => B.Quiet ∧ B.mode = .owned o c ∧ B.AsksWrite i ∧
      (all = true → c = true ∧ B.Asks i .upgrade)
  | .collectOwned o r i c => B.Quiet ∧ B.mode = .reclaim o r c false ∧
      (B.slot i).probe = .answered .ack
  | .upgradeOwner o c => B.Quiet ∧ B.mode = .reclaim o o c false ∧ B.members ⊆ {o} ∧ B.owing = ∅
  | .recallOwner o r c => B.Quiet ∧ B.mode = .reclaim o r c false ∧ B.owing = ∅
  | .reclaimed o r c => B.Quiet ∧ B.mode = .reclaim o r c true ∧
      (B.slot o).probe = .answered .data
  | .writeback i => B.Quiet ∧ B.mode.Stable ∧ 0 < (B.slot i).writebacks
  | .respond i g => (B.slot i).phase = .fetching g

/-! ## Effects -/

/-- Send an order to `h` on behalf of `i`, who waits. -/
def tell (B : Block ι) (h i : ι) (o : Order) (m : Mode ι) : Block ι :=
  { (B.modify h (.send o)).modify i .wait with mode := m }

/-- Invalidate the targets on behalf of `i`, who waits. -/
def purge (B : Block ι) (targets : Finset ι) (i : ι) (m : Mode ι) : Block ι :=
  { (B.order targets .invalidate).modify i .wait with mode := m }

/-- Answer node `i` from the directory. -/
def serve (B : Block ι) (i : ι) (g : Grant) (m : Mode ι) (members : Finset ι) : Block ι :=
  { B.modify i (.grant g) with mode := m, members := members }

/-- Answer node `i` from memory. -/
def fetch (B : Block ι) (i : ι) (g : Grant) (m : Mode ι) (members : Finset ι) : Block ι :=
  { B.modify i (.fetch g) with mode := m, members := members }

section

variable (B : Block ι) (h i : ι) (o : Order) (g : Grant) (m : Mode ι) (targets members : Finset ι)

@[simp] theorem tell_mode : (B.tell h i o m).mode = m := rfl

@[simp] theorem tell_members : (B.tell h i o m).members = B.members := rfl

@[simp] theorem tell_slot :
    (B.tell h i o m).slot = ((B.modify h (.send o)).modify i .wait).slot := rfl

@[simp] theorem purge_mode : (B.purge targets i m).mode = m := rfl

@[simp] theorem purge_members : (B.purge targets i m).members = B.members := rfl

@[simp] theorem purge_slot :
    (B.purge targets i m).slot = ((B.order targets .invalidate).modify i .wait).slot := rfl

@[simp] theorem serve_mode : (B.serve i g m members).mode = m := rfl

@[simp] theorem serve_members : (B.serve i g m members).members = members := rfl

@[simp] theorem serve_slot : (B.serve i g m members).slot = (B.modify i (.grant g)).slot := rfl

@[simp] theorem fetch_mode : (B.fetch i g m members).mode = m := rfl

@[simp] theorem fetch_members : (B.fetch i g m members).members = members := rfl

@[simp] theorem fetch_slot : (B.fetch i g m members).slot = (B.modify i (.fetch g)).slot := rfl

end

/-- The effect of an event. -/
def after (B : Block ι) : Event ι → Block ι
  | .ask i r => B.modify i (.ask r)
  | .accept i => B.modify i .accept
  | .drop i => B.modify i (.answer .none .ack)
  | .surrender i => B.modify i (.answer .none .data)
  | .share i => B.modify i (.answer .shared .data)
  | .own i _ => B.modify i (.answer .owned .data)
  | .evict i => B.modify i .evict
  | .lose i => B.modify i .lose
  | .refill i => B.modify i .refill
  | .grantExclusive i => B.fetch i .data (.exclusive i false) {i}
  | .grantShared i => B.fetch i .data .shared {i}
  | .grantClean i => B.fetch i .cleanExclusive (.exclusive i true) {i}
  | .join i => B.fetch i .data .shared (insert i B.members)
  | .promote h i => B.serve i .ack (.exclusive h false) B.members
  | .takeover h i _ => B.tell h i .giveBack (.takeover h i)
  | .downgrade h i _ => B.tell h i .share (.downgrade h i)
  | .forward o i c k => B.tell o i (.own k) (.forward o i c)
  | .takenOver h i => (B.modify h .settle).serve i .data (.exclusive i false) {i}
  | .downgraded h i => (B.modify h .settle).serve i .data .shared (insert i B.members)
  | .forwarded o i c => (B.modify o .settle).serve i .data (.owned o c) (insert i B.members)
  | .upgrade i => B.serve i .ack (.exclusive i false) {i}
  | .invalidate i => B.purge (B.members.erase i) i (.invalidate i)
  | .collect _ i => { B.modify i .settle with members := B.members.erase i }
  | .collected r =>
      if r ∈ B.members then B.serve r .ack (.exclusive r false) B.members
      else B.fetch r .data (.exclusive r false) (insert r B.members)
  | .reclaim o i c all =>
      B.purge ((if all then B.members else B.members.erase o).erase i) i (.reclaim o i c false)
  | .collectOwned _ _ i _ => { B.modify i .settle with members := B.members.erase i }
  | .upgradeOwner o _ => B.serve o .ack (.exclusive o false) B.members
  | .recallOwner o r c => { B.modify o (.send .giveBack) with mode := .reclaim o r c true }
  | .reclaimed o r _ =>
      if r ∈ B.members.erase o then
        (B.modify o .settle).serve r .ack (.exclusive r false) (B.members.erase o)
      else
        (B.modify o .settle).serve r .data (.exclusive r false) (insert r (B.members.erase o))
  | .writeback i =>
      { B.modify i .noted with
        mode := B.mode.without (B.members.erase i) i, members := B.members.erase i }
  | .respond i g => B.modify i (.grant g)

end Block

/-- The events of one node, and the memory's answer, act on one slot only. -/
def Event.slot : Event ι → Option (ι × (Slot → Slot))
  | .ask i r => some (i, .ask r)
  | .accept i => some (i, .accept)
  | .drop i => some (i, .answer .none .ack)
  | .surrender i => some (i, .answer .none .data)
  | .share i => some (i, .answer .shared .data)
  | .own i _ => some (i, .answer .owned .data)
  | .evict i => some (i, .evict)
  | .lose i => some (i, .lose)
  | .refill i => some (i, .refill)
  | .respond i g => some (i, .grant g)
  | _ => none

/-- The node whose request an event takes up. -/
def Event.asker : Event ι → Option ι
  | .grantExclusive i | .grantShared i | .grantClean i | .join i | .promote _ i
  | .takeover _ i _ | .downgrade _ i _ | .forward _ i _ _ | .upgrade i | .invalidate i
  | .reclaim _ i _ _ => some i
  | _ => none

theorem Block.after_of_slot (B : Block ι) {e : Event ι} {i : ι} {f : Slot → Slot}
    (slot : e.slot = some (i, f)) : B.after e = B.modify i f := by
  cases e <;> cases slot <;> rfl

end DirectoryProtocol
