import Mathlib.Algebra.Order.BigOperators.Group.Finset
import MulticoreSim.Coherence.RingOrder

/-! # How far a message is from its end

A message waits behind others in a queue, for a link to be free, on the link, and in
its destination's inbox. What it waits for is always one turn of one node, and that
turn brings it nearer.
-/

open Finset (mem_range)

namespace Coherence.Ring

variable {n k F T r : Nat} {σ σ' : Ring} {id : MsgId}

/-- The half of a cycle of one node. -/
inductive Turn where
  | tick (k : NodeId)
  | tock (k : NodeId)

/-- Where a message stands, with the messages that stand before it. -/
inductive Place where
  | next (k : NodeId)
  /-- The queue, the first message of which leaves by `p`. -/
  | queue (k : NodeId) (ahead : Nat) (p : Port)
  | link (k : NodeId) (p : Port)
  | inbox (k : NodeId) (ahead : Nat)

/-- The cycles until a link is free. -/
def wait (n : Nat) (σ : Ring) (k : NodeId) (p : Port) : Nat :=
  match link n σ k p with
  | none => 0
  | some id => (σ.tof id).toNat + 1

/-- A cache has taken its message of this cycle. -/
def busy (n : Nat) (σ : Ring) (k : NodeId) : Nat :=
  if k + 1 ≠ n ∧ (σ.nodes k).cacheIn ≠ none then 1 else 0

/-- A message stands in a place, where something else has to happen first. -/
inductive At (n : Nat) (σ : Ring) (id : MsgId) : Place → Nat → Prop where
  | next {k : NodeId} : k < n → id ∈ (σ.nodes k).outNext → At n σ id (.next k) 0
  | queue {k : NodeId} {pre post : List MsgId} {first : MsgId} : k < n →
      (σ.nodes k).outQueue = pre ++ id :: post → (σ.nodes k).outQueue.head? = some first →
        At n σ id (.queue k pre.length (port n k (σ.heap first).dst)) (wait n σ k (port n k (σ.heap first).dst))
  | link {k : NodeId} {p : Port} : k < n → link n σ k p = some id → At n σ id (.link k p) (wait n σ k p)
  | inbox {k : NodeId} {pre post : List MsgId} : k < n → (σ.nodes k).inQueue = pre ++ id :: post →
      At n σ id (.inbox k pre.length) (busy n σ k)

/-- Whose turn it takes. -/
def Place.turn (n : Nat) : Place → Nat → Turn
  | .next k, _ => .tock k
  | .queue k _ _, 0 => .tick k
  | .queue k _ p, 1 => .tick (target n k p)
  | .queue k _ _, _ + 2 => .tock k
  | .link k _, 0 => .tick k
  | .link k p, 1 => .tick (target n k p)
  | .link k _, _ + 2 => .tock k
  | .inbox k _, 0 => .tick k
  | .inbox k _, _ + 1 => .tock k

/-- The turns that one hop may take among `T` messages of `F` flits. -/
def perHop (F T : Nat) : Nat := (T + 1) * (F + 2)

/-- The turns that a message to `dst` may still take. -/
def Place.rank (n F T dst : Nat) : Place → Nat → Nat
  | .next k, _ => togo n k dst * perHop F T + 2 * T + 1
  | .queue k ahead _, w => (togo n k dst - 1) * perHop F T + 2 * T + (F + 1) + ahead * (F + 2) + w + 1
  | .link k _, w => (togo n k dst - 1) * perHop F T + 2 * T + w
  | .inbox _ ahead, w => 2 * ahead + w + 1

/-- How many messages there have been. -/
def named (σ : Ring) : Nat := σ.fresh

/-- How many of them are on their way. -/
def underway (n : Nat) (σ : Ring) : Nat := σ.named - ∑ k ∈ Finset.range n, (σ.nodes k).handed.length

/-- At most `T` messages of at most `F` flits are on their way. -/
structure Roomy (n F T : Nat) (σ : Ring) : Prop where
  sound : Sound n σ
  /-- A sender knows of what it has not counted down. -/
  known : ∀ k < n, ∀ p id, link n σ k p = some id → 0 < σ.tof id → (σ.nodes k).outgoing p = some id
  flits : ∀ id < σ.fresh, (σ.heap id).flits ≤ F
  tof : ∀ id, σ.tof id ≤ F
  room : underway n σ ≤ T

namespace Roomy

/-- Every message is somewhere. -/
theorem sum_length (roomy : Roomy n F T σ) :
    ∑ k ∈ Finset.range n, (σ.nodes k).messages.length = σ.named := by
  have perm : ((List.range n).flatMap fun k => (σ.nodes k).messages).Perm (List.range σ.fresh) := by
    refine List.perm_iff_count.mpr fun id => ?_
    rw [List.count_flatMap, List.count_range, ← roomy.sound.counted id]
    rfl
  have lengths := perm.length_eq
  rw [List.length_flatMap, List.length_range] at lengths
  exact lengths

theorem waiting_le (roomy : Roomy n F T σ) (here : k < n) :
    (σ.nodes k).inQueue.length + (σ.nodes k).outQueue.length ≤ T := by
  have room := roomy.room
  have parts (j : Nat) : (σ.nodes j).handed.length +
      ((σ.nodes j).inQueue.length + (σ.nodes j).outQueue.length) ≤ (σ.nodes j).messages.length := by
    simp only [RingNode.messages, List.length_append]
    omega
  have all : ∑ j ∈ Finset.range n, (σ.nodes j).handed.length +
      ∑ j ∈ Finset.range n, ((σ.nodes j).inQueue.length + (σ.nodes j).outQueue.length) ≤ σ.named := by
    rw [← roomy.sum_length, ← Finset.sum_add_distrib]
    exact Finset.sum_le_sum fun j _ => parts j
  have mine : (σ.nodes k).inQueue.length + (σ.nodes k).outQueue.length ≤
      ∑ j ∈ Finset.range n, ((σ.nodes j).inQueue.length + (σ.nodes j).outQueue.length) :=
    Finset.single_le_sum (f := fun j => (σ.nodes j).inQueue.length + (σ.nodes j).outQueue.length)
      (fun _ _ => Nat.zero_le _) (mem_range.mpr here)
  unfold underway at room
  omega

theorem wait_le (roomy : Roomy n F T σ) (k : NodeId) (p : Port) : wait n σ k p ≤ F + 1 := by
  unfold wait
  split
  · exact Nat.zero_le _
  · next id _ =>
      have := roomy.tof id
      omega

end Roomy

/-- The message has come to its end. -/
def Ended (σ : Ring) (id : MsgId) : Prop := id ∈ (σ.nodes (σ.heap id).dst).handed

/-- It has, or fewer turns than `r` are left. -/
def Nearer (n F T : Nat) (σ : Ring) (id : MsgId) (r : Nat) : Prop :=
  Ended σ id ∨ ∃ pl w, At n σ id pl w ∧ pl.rank n F T (σ.heap id).dst w < r

/-- No message is taken back: each is nearer its end, or where it was. -/
structure Forward (n F T : Nat) (σ σ' : Ring) : Prop where
  fresh : σ.fresh ≤ σ'.fresh
  heap : ∀ id < σ.fresh, σ'.heap id = σ.heap id
  ended : ∀ id < σ.fresh, Ended σ id → Ended σ' id
  moved : ∀ id < σ.fresh, ∀ pl w, At n σ id pl w →
    Nearer n F T σ' id (pl.rank n F T (σ.heap id).dst w) ∨ At n σ' id pl w

/-- Those that stand so come nearer. -/
def Takes (n F T : Nat) (P : Place → Nat → Prop) (σ σ' : Ring) : Prop :=
  ∀ id < σ.fresh, ∀ pl w, At n σ id pl w → P pl w → Nearer n F T σ' id (pl.rank n F T (σ.heap id).dst w)

theorem Nearer.mono (nearer : Nearer n F T σ id r) {r' : Nat} (le : r ≤ r') : Nearer n F T σ id r' := by
  refine nearer.imp_right ?_
  rintro ⟨pl, w, here, less⟩
  exact ⟨pl, w, here, less.trans_le le⟩

namespace Forward

theorem refl (σ : Ring) : Forward n F T σ σ := ⟨le_rfl, fun _ _ => rfl, fun _ _ => id, fun _ _ _ _ => .inr⟩

/-- Those that are nearer stay so. -/
theorem nearer (step : Forward n F T σ σ') (old : id < σ.fresh) (near : Nearer n F T σ id r) :
    Nearer n F T σ' id r := by
  rcases near with ended | ⟨pl, w, here, less⟩
  · exact .inl (step.ended id old ended)
  · rcases step.moved id old pl w here with near | still
    · exact near.mono less.le
    · exact .inr ⟨pl, w, still, by rwa [step.heap id old]⟩

theorem trans {σ'' : Ring} (first : Forward n F T σ σ') (second : Forward n F T σ' σ'') :
    Forward n F T σ σ'' where
  fresh := first.fresh.trans second.fresh
  heap id old := (second.heap id (old.trans_le first.fresh)).trans (first.heap id old)
  ended id old ended := second.ended id (old.trans_le first.fresh) (first.ended id old ended)
  moved id old pl w here := by
    have old' := old.trans_le first.fresh
    rcases first.moved id old pl w here with near | still
    · exact .inl (second.nearer old' near)
    · rw [← first.heap id old]
      exact second.moved id old' pl w still

end Forward

namespace Takes

variable {σ'' : Ring} {P Q : Place → Nat → Prop}

/-- Something else comes before. -/
theorem after (takes : Takes n F T P σ' σ'') (before : Forward n F T σ σ') (later : Forward n F T σ' σ'') :
    Takes n F T P σ σ'' := by
  intro id old pl w here such
  have old' := old.trans_le before.fresh
  rcases before.moved id old pl w here with near | still
  · exact later.nearer old' near
  · rw [← before.heap id old]
    exact takes id old' pl w still such

/-- Something else comes later. -/
theorem before (takes : Takes n F T P σ σ') (known : σ.fresh ≤ σ'.fresh) (later : Forward n F T σ' σ'') :
    Takes n F T P σ σ'' :=
  fun id old pl w here such => later.nearer (old.trans_le known) (takes id old pl w here such)

/-- What has not come nearer is where it was, and may not stand there. -/
theorem of_still (step : Forward n F T σ σ') (gone : ∀ id pl w, At n σ' id pl w → ¬P pl w) : Takes n F T P σ σ' :=
  fun id old pl w here such => (step.moved id old pl w here).resolve_right fun still => gone id pl w still such

end Takes

end Coherence.Ring
