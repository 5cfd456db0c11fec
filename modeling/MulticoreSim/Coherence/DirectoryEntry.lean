import MulticoreSim.Coherence.AgentLaws
import MulticoreSim.Library.DirectoryProtocol.Rounds

/-! # Directory entries as abstract lines

Which entry stands for which mode and member set, and what it means that one
step of the directory does what enabled events of the line do: the entry it
leaves, the messages it takes in and sends, the request it puts to memory.
-/

namespace Coherence

open DirectoryProtocol

/-! ## Entries -/

/-- The directory states a mode is kept in, in a protocol of the profile. -/
def Stands (P : Profile) (d : DirState) : Mode NodeId → Prop
  | .idle => d = .I
  | .exclusive _ c => d = if c then .E else .M
  | .shared => d = .S
  | .owned _ c => d = if c then .F else .O
  | .takeover .. => d = .MM ∨ P.clean = true ∧ d = .EM
  | .downgrade .. => d = .MS ∨ P.clean = true ∧ d = .ES
  | .forward _ _ c => if c then d = .EF ∨ d = .FF else d = .MO ∨ d = .OO
  | .invalidate _ => d = .SM
  | .reclaim _ _ c _ => d = if c then .FM else .OM

/-- The presence bits and the counter beside them list a set of CPUs. -/
structure Members (n : Nat) (presence : NodeId → Bool) (activeSharers : Nat) (s : Finset NodeId) :
    Prop where
  presence : ∀ i, presence i = true ↔ i ∈ s
  count : activeSharers = s.card
  bound : ∀ i ∈ s, i < n

section

variable (e : DirEntry) (i : NodeId)

@[simp] theorem ensurePresence_state : (e.ensurePresence i).state = e.state := by
  unfold DirEntry.ensurePresence
  split <;> rfl

@[simp] theorem ensurePresence_blockId : (e.ensurePresence i).blockId = e.blockId := by
  unfold DirEntry.ensurePresence
  split <;> rfl

@[simp] theorem forget_state : (e.forget i).state = e.state := by
  unfold DirEntry.forget
  split <;> rfl

@[simp] theorem forget_blockId : (e.forget i).blockId = e.blockId := by
  unfold DirEntry.forget
  split <;> rfl

@[simp] theorem forget_oFId : (e.forget i).oFId = e.oFId := by
  unfold DirEntry.forget
  split <;> rfl

end

namespace Members

variable {n : Nat} {e : DirEntry} {s : Finset NodeId}

theorem card_le (members : Members n e.presence e.activeSharers s) : s.card ≤ n := by
  have sub : s ⊆ Finset.range n := fun i mem => Finset.mem_range.mpr (members.bound i mem)
  simpa using Finset.card_le_card sub

theorem add (members : Members n e.presence e.activeSharers s) (small : n ≤ kMaxSharers)
    {i : NodeId} (bound : i < n) (fresh : i ∉ s) :
    Members n (e.addPresence i).presence (e.addPresence i).activeSharers (insert i s) where
  presence j := by
    simp only [DirEntry.addPresence, Function.update_apply, Finset.mem_insert, ← members.presence]
    split <;> simp_all
  count := by
    have le := members.card_le
    simp only [DirEntry.addPresence, members.count, Finset.card_insert_of_notMem fresh]
    simp only [kMaxSharers] at small
    omega
  bound := by
    intro j mem
    rcases Finset.mem_insert.mp mem with rfl | mem
    · exact bound
    · exact members.bound j mem

theorem drop (members : Members n e.presence e.activeSharers s) (small : n ≤ kMaxSharers)
    {i : NodeId} (mem : i ∈ s) :
    Members n (e.dropPresence i).presence (e.dropPresence i).activeSharers (s.erase i) where
  presence j := by
    simp only [DirEntry.dropPresence, Function.update_apply, Finset.mem_erase, ← members.presence]
    split <;> simp_all
  count := by
    have le := members.card_le
    have pos := Finset.card_pos.mpr ⟨i, mem⟩
    simp only [DirEntry.dropPresence, members.count, Finset.card_erase_of_mem mem]
    simp only [kMaxSharers] at small
    omega
  bound j mem := members.bound j (Finset.mem_of_mem_erase mem)

theorem forget (members : Members n e.presence e.activeSharers s) (i : NodeId) :
    Members n (e.forget i).presence (e.forget i).activeSharers (s.erase i) := by
  unfold DirEntry.forget
  split
  · next present =>
      have mem := (members.presence i).mp present
      refine ⟨fun j => ?_, ?_, fun j mem => members.bound j (Finset.mem_of_mem_erase mem)⟩
      · simp only [Function.update_apply, Finset.mem_erase, ← members.presence]
        split <;> simp_all
      · have pos := Finset.card_pos.mpr ⟨i, mem⟩
        simp only [members.count, Finset.card_erase_of_mem mem, pos, if_true]
  · next absent =>
      rwa [Finset.erase_eq_of_notMem (mt (members.presence i).mpr absent)]

theorem ensure (members : Members n e.presence e.activeSharers s) (small : n ≤ kMaxSharers)
    {i : NodeId} (bound : i < n) :
    Members n (e.ensurePresence i).presence (e.ensurePresence i).activeSharers (insert i s) := by
  unfold DirEntry.ensurePresence
  split
  · next present =>
      rwa [Finset.insert_eq_of_mem ((members.presence i).mp present)]
  · next absent =>
      exact members.add small bound fun mem => absent ((members.presence i).mpr mem)

/-- The first member is noted. -/
theorem ensure_first (members : Members n e.presence e.activeSharers ∅) (small : n ≤ kMaxSharers)
    {i : NodeId} (bound : i < n) :
    Members n (e.ensurePresence i).presence (e.ensurePresence i).activeSharers {i} := by
  simpa using members.ensure small bound

/-- A member is noted already. -/
theorem ensure_mem (members : Members n e.presence e.activeSharers s) (small : n ≤ kMaxSharers)
    {i : NodeId} (mem : i ∈ s) :
    Members n (e.ensurePresence i).presence (e.ensurePresence i).activeSharers s := by
  have ensured := members.ensure small (members.bound i mem)
  rwa [Finset.insert_eq_of_mem mem] at ensured

/-- The loops that look for the one holder find it. -/
theorem lastPresent {i : NodeId} (members : Members n e.presence e.activeSharers {i}) :
    e.lastPresent n = i := by
  have only : ∀ j, e.presence j = true ↔ j = i := by simpa using members.presence
  have found : ∀ (l : List NodeId) (target : NodeId), target = i ∨ i ∈ l →
      l.foldl (fun target j => if e.presence j then j else target) target = i := by
    intro l
    induction l with
    | nil => simp
    | cons j l ih =>
        intro target here
        refine ih _ ?_
        by_cases eq : j = i
        · simp [only, eq]
        · simpa [only, eq, Ne.symm eq] using here
  have bound := members.bound i (by simp)
  exact found _ _ (.inr (List.mem_range.mpr bound))

theorem any_present {i : NodeId} (members : Members n e.presence e.activeSharers {i}) :
    (List.range n).any e.presence = true := by
  have bound := members.bound i (by simp)
  exact List.any_eq_true.mpr ⟨i, List.mem_range.mpr bound, (members.presence i).mpr (by simp)⟩

theorem firstPresent {i : NodeId} (members : Members n e.presence e.activeSharers {i})
    (small : n ≤ kMaxSharers) : e.firstPresent = some i := by
  have only : ∀ j, e.presence j = true ↔ j = i := by simpa using members.presence
  have bound := members.bound i (by simp)
  cases found : e.firstPresent with
  | none =>
      have absent := List.find?_eq_none.mp found i
        (List.mem_range.mpr (lt_of_lt_of_le bound small))
      exact absurd ((only i).mpr rfl) absent
  | some j => rw [(only j).mp (List.find?_some found)]

theorem mem_presentExcept (members : Members n e.presence e.activeSharers s) {bound : Nat}
    (le : n ≤ bound) (keep : NodeId → Bool) (i : NodeId) :
    i ∈ e.presentExcept bound keep ↔ i ∈ s ∧ keep i = true := by
  simp only [DirEntry.presentExcept, List.mem_filter, List.mem_range, Bool.and_eq_true,
    members.presence]
  constructor
  · exact And.right
  · exact fun here => ⟨lt_of_lt_of_le (members.bound i here.1) le, here⟩

theorem nodup_presentExcept (e : DirEntry) (bound : Nat) (keep : NodeId → Bool) :
    (e.presentExcept bound keep).Nodup := List.nodup_range.filter _

end Members

/-- An entry stands for an abstract line. `marks` is set where a round's entry
    notes whether its requester is a member. -/
structure Entry (P : Profile) (marks : Prop) (n : Nat) (b : BlockId) (e : DirEntry)
    (B : Block NodeId) : Prop where
  stands : Stands P e.state B.mode
  blockId : e.blockId = b
  members : Members n e.presence e.activeSharers B.members
  requester : ∀ i, B.mode.requester = some i → e.reqNodeInTransient = i ∧ i < n
  owner : ∀ o, B.mode.owner = some o → e.oFId = o
  awaiting : B.Collecting → e.invAckWaiting = B.owing.card
  upgrade : marks → ∀ i, B.mode = .invalidate i → (e.getMUpgrade = true ↔ i ∈ B.members)

theorem Entry.initial (P : Profile) (marks : Prop) (n : Nat) (b : BlockId) :
    Entry P marks n b { blockId := b } (Block.initial NodeId) where
  stands := rfl
  blockId := rfl
  members := ⟨by simp [Block.initial], rfl, by simp [Block.initial]⟩
  requester _ requester := nomatch requester
  owner _ owner := nomatch owner
  awaiting collecting := by rcases collecting with ⟨r, mode⟩ | ⟨o, r, c, mode⟩ <;> cases mode
  upgrade _ _ mode := nomatch mode

/-! ## Steps of the directory -/

/-- What a step of the directory on a message about the line `B` may be made of.
    `starved` and `wild` are the conditions under which it may invalidate an owner for
    somebody else and let an outsider write. A request is taken up first, and an
    eviction notice alone. -/
def Legal (P : Profile) (starved wild : Prop) (B : Block NodeId) (r : Message) (X : Block NodeId)
    (e : Event NodeId) : Prop :=
  P.Event e ∧ e.slot = none ∧ (∀ h i, e = .promote h i → i ∈ X.members ∨ wild) ∧
    (∀ o i c, e = .reclaim o i c true → i = o ∨ starved) ∧
    (∀ i, e.asker = some i → r.src = i ∧ X = B ∧ ∃ q, r.kind = requestKind q ∧ B.Asks i q) ∧
    ∀ i, e = .writeback i → r.src = i ∧ X = B ∧ r.kind = .dataWb

section

variable {P : Profile} {starved wild : Prop} {B X : Block NodeId} {r : Message} {e : Event NodeId}

/-- The event that takes a request up. -/
theorem Legal.asking {q : Request} (event : P.Event e) (slot : e.slot = none)
    (asker : e.asker = some r.src) (kind : r.kind = requestKind q) (asks : B.Asks r.src q)
    (promotes : ∀ h i, e = .promote h i → i ∈ B.members ∨ wild)
    (reclaims : ∀ o i c, e = .reclaim o i c true → i = o ∨ starved) :
    Legal P starved wild B r B e := by
  refine ⟨event, slot, promotes, reclaims, fun i asked => ?_, ?_⟩
  · cases asker.symm.trans asked
    exact ⟨rfl, rfl, q, kind, asks⟩
  · rintro i rfl
    cases asker

/-- An event of a round already begun, or of no round. -/
theorem Legal.silent (event : P.Event e) (slot : e.slot = none) (asker : e.asker = none)
    (silent : ∀ i, e ≠ .writeback i) : Legal P starved wild B r X e := by
  refine ⟨event, slot, ?_, ?_, ?_, fun i eq => absurd eq (silent i)⟩
  · rintro h i rfl
    cases asker
  · rintro o i c rfl
    cases asker
  · intro i asked
    cases asker.symm.trans asked

/-- The event of an eviction notice. -/
theorem Legal.notice (kind : r.kind = .dataWb) : Legal P starved wild B r B (.writeback r.src) := by
  refine ⟨trivial, rfl, nofun, nofun, nofun, ?_⟩
  rintro i ⟨⟩
  exact ⟨rfl, rfl, kind⟩

end

/-- The messages an outcome sends. -/
def Outcome.sent (o : Outcome) : List (NodeId × MessageKind × Bool) :=
  o.sends.map fun x => (x.dest, x.kind, x.dirty)

/-- The answer memory owes a node after an outcome. -/
def Outcome.fetch (o : Outcome) (j : NodeId) : Option Grant :=
  match o.schedule with
  | some (_, i) => if i = j then some (if o.sendE then .cleanExclusive else .data) else none
  | none => none

/-- The message an outcome takes from the queue. -/
def Outcome.taken (o : Outcome) (r : Message) : List (NodeId × MessageKind) :=
  if o.cycled then [] else [(r.src, r.kind)]

/-- An outcome does to the line what enabled events do, ending in `B'`. -/
structure Refines (P : Profile) (marks : Prop) (n : Nat) (b : BlockId) (starved wild : Prop)
    (B : Block NodeId) (r : Message) (o : Outcome) (B' : Block NodeId) : Prop where
  steps : B.Steps (Legal P starved wild B r) B'
  entry : Entry P marks n b o.entry B'
  moves : ∀ j, Moves (B.slot j) (B'.slot j) (addressed j (o.taken r)) (addressed j o.sent)
    (o.fetch j)
  tags : ∀ x ∈ o.sends, x.tag = b
  scheduled : ∀ x, o.schedule = some x → x.1 = b
  clean : o.sendE = true → o.schedule ≠ none
  awaits : ¬ starved → B.Awaiting → B'.Awaiting

/-- The directory is about to handle a message the line accounts for. -/
structure Meets (P : Profile) (marks : Prop) (n : Nat) (b : BlockId) (e : DirEntry)
    (B : Block NodeId) (r : Message) : Prop where
  inv : B.Inv
  within : P.Within B
  entry : Entry P marks n b e B
  quiet : B.Quiet
  small : n ≤ kMaxSharers
  block : r.block = b
  src : r.src < n
  here : 0 < up (B.slot r.src) r.kind

end Coherence
