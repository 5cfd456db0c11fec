import Mathlib.Algebra.BigOperators.Group.Finset.Piecewise
import Mathlib.Algebra.Order.BigOperators.Group.Finset
import Mathlib.Logic.Relation
import MulticoreSim.Coherence.RingSteps

/-! # The ring loses nothing, and keeps the order

A cycle is a sequence of moves, each of which passes one message on and keeps
what the ring holds.
-/

open Finset (sum_congr mem_range)

namespace Coherence

/-- The messages of a node, wherever they stand in it. -/
def RingNode.messages (x : RingNode) : List MsgId :=
  x.handed ++ x.inQueue ++ x.inNext ++ (x.incoming .left).toList ++ (x.incoming .right).toList ++
    x.outQueue ++ x.outNext

theorem RingNode.count_messages (x : RingNode) (id : MsgId) (p : Port) :
    x.messages.count id = x.handed.count id + x.inQueue.count id + x.inNext.count id +
      (x.incoming p).toList.count id + (x.incoming p.other).toList.count id +
      x.outQueue.count id + x.outNext.count id := by
  cases p <;> simp only [messages, List.count_append, Port.other]
  omega

namespace Ring

variable {n k : Nat} {σ σ' : Ring} {id : MsgId}

/-- Every message that was sent is in one place, and nothing else is anywhere. -/
def Counted (n : Nat) (σ : Ring) : Prop :=
  ∀ x, ∑ k ∈ Finset.range n, (σ.nodes k).messages.count x = if x < σ.fresh then 1 else 0

theorem Counted.of_eq (counted : Counted n σ) (fresh : σ'.fresh = σ.fresh)
    (same : ∀ k x, (σ'.nodes k).messages.count x = (σ.nodes k).messages.count x) :
    Counted n σ' := by
  intro x
  rw [fresh, ← counted x]
  exact sum_congr rfl fun k _ => same k x

theorem Same.counted (same : Same σ σ') (counted : Counted n σ) : Counted n σ' := by
  refine counted.of_eq same.fresh fun k x => ?_
  simp only [RingNode.messages, same.handed, same.inQueue, same.inNext, same.incoming,
    same.outQueue, same.outNext]

/-- What one node gives up another one takes. -/
theorem Launched.counted (step : Launched n k id σ σ') (here : k < n) (counted : Counted n σ) :
    Counted n σ' := by
  have there := target_lt here (port n k (σ.heap id).dst)
  have moved (x : MsgId) (j : Nat) : (σ'.nodes j).messages.count x +
      (if j = k then [id].count x else 0) = (σ.nodes j).messages.count x +
      if j = target n k (port n k (σ.heap id).dst) then [id].count x else 0 := by
    have queue : (σ'.nodes j).outQueue.count x + (if j = k then [id].count x else 0) =
        (σ.nodes j).outQueue.count x := by
      by_cases eq : j = k
      · rw [eq, step.queue, if_pos rfl]
        simp [List.count_cons]
      · rw [step.outQueue j eq, if_neg eq, Nat.add_zero]
    have slot : ((σ'.nodes j).incoming (port n k (σ.heap id).dst).other).toList.count x =
        ((σ.nodes j).incoming (port n k (σ.heap id).dst).other).toList.count x +
          if j = target n k (port n k (σ.heap id).dst) then [id].count x else 0 := by
      by_cases eq : j = target n k (port n k (σ.heap id).dst)
      · have free := step.free
        have taken := step.taken
        rw [link, ← eq] at free taken
        rw [free, taken, if_pos eq]
        simp
      · rw [step.incoming j _ (.inl eq), if_neg eq, Nat.add_zero]
    have other : (σ'.nodes j).incoming (port n k (σ.heap id).dst) =
        (σ.nodes j).incoming (port n k (σ.heap id).dst) := by
      refine step.incoming j _ (.inr ?_)
      cases port n k (σ.heap id).dst <;> simp [Port.other]
    rw [RingNode.count_messages _ _ (port n k (σ.heap id).dst),
      RingNode.count_messages _ _ (port n k (σ.heap id).dst), step.handed, step.inQueue,
      step.inNext, step.outNext, other, slot]
    omega
  intro x
  have sums := sum_congr rfl fun j (_ : j ∈ Finset.range n) => moved x j
  rw [Finset.sum_add_distrib, Finset.sum_add_distrib, Finset.sum_ite_eq', Finset.sum_ite_eq',
    if_pos (mem_range.mpr here), if_pos (mem_range.mpr there)] at sums
  rw [step.fresh, ← counted x]
  exact Nat.add_right_cancel sums

theorem Landed.counted {p : Port} (step : Landed k p id σ σ') (counted : Counted n σ) :
    Counted n σ' := by
  refine counted.of_eq step.fresh fun j x => ?_
  have slot : ((σ'.nodes j).incoming p).toList.count x + (if j = k then [id].count x else 0) =
      ((σ.nodes j).incoming p).toList.count x := by
    rw [step.incoming]
    by_cases eq : j = k
    · simp [eq, step.full]
    · simp [eq]
  have other : (σ'.nodes j).incoming p.other = (σ.nodes j).incoming p.other := by
    rw [step.incoming, if_neg]
    cases p <;> simp [Port.other]
  rw [RingNode.count_messages _ _ p, RingNode.count_messages _ _ p, step.handed, step.inQueue,
    step.inNext, step.outNext, step.outQueue, other, ← slot, List.count_append, List.count_append]
  by_cases eq : j = k <;> by_cases home : (σ.heap id).dst = k <;> simp [eq, home]
  all_goals omega

theorem HandedOver.counted (step : HandedOver k id σ σ') (counted : Counted n σ) :
    Counted n σ' := by
  refine counted.of_eq step.fresh fun j x => ?_
  have ended := congrArg (List.count x) (step.ended j)
  rw [List.count_append, List.count_append] at ended
  rw [RingNode.count_messages _ _ .left, RingNode.count_messages _ _ .left, step.inNext,
    step.outNext, step.outQueue, step.incoming, ended]

theorem Injected.counted {m : Message} (step : Injected k m σ σ') (here : k < n)
    (counted : Counted n σ) : Counted n σ' := by
  have added (x : MsgId) (j : Nat) : (σ'.nodes j).messages.count x =
      (σ.nodes j).messages.count x + if j = k then [σ.fresh].count x else 0 := by
    rw [RingNode.count_messages _ _ .left, RingNode.count_messages _ _ .left, step.handed,
      step.inQueue, step.inNext, step.outNext, step.outQueue, step.incoming, List.count_append]
    split
    · omega
    · rw [List.count_nil]
      omega
  intro x
  rw [sum_congr rfl fun j _ => added x j, Finset.sum_add_distrib, Finset.sum_ite_eq',
    if_pos (mem_range.mpr here), counted x, step.fresh, List.count_singleton]
  have named := Nat.lt_succ_iff_lt_or_eq (m := x) (n := σ.fresh)
  by_cases old : x < σ.fresh
  · simp [old, Nat.lt_succ_of_lt old, Nat.ne_of_gt old]
  · by_cases eq : σ.fresh = x
    · simp [eq]
    · simp [old, eq, named, Ne.symm eq]

theorem Spliced.counted (step : Spliced k σ σ') (counted : Counted n σ) : Counted n σ' := by
  refine counted.of_eq step.fresh fun j x => ?_
  rw [RingNode.count_messages _ _ .left, RingNode.count_messages _ _ .left, step.handed,
    step.inQueue, step.inNext, step.outNext, step.outQueue, step.incoming, List.count_append]
  by_cases eq : j = k <;> simp [eq, Nat.add_assoc]

/-- A message is in one link only. -/
theorem Counted.link_unique (counted : Counted n σ) {j : Nat} {p q : Port} (here : k < n)
    (there : j < n) (one : link n σ k p = some id) (two : link n σ j q = some id) :
    k = j ∧ p = q := by
  have count (i : Nat) (r : Port) (slot : (σ.nodes i).incoming r = some id) :
      1 + ((σ.nodes i).incoming r.other).toList.count id ≤ (σ.nodes i).messages.count id := by
    rw [RingNode.count_messages _ _ r, slot]
    simp only [Option.toList_some, List.count_singleton_self]
    omega
  have total : ∑ i ∈ Finset.range n, (σ.nodes i).messages.count id ≤ 1 := by
    rw [counted id]
    split <;> omega
  have first := count _ _ one
  have second := count _ _ two
  have here' := target_lt here p
  have there' := target_lt there q
  by_cases node : target n k p = target n j q
  · have least : (σ.nodes (target n k p)).messages.count id ≤ 1 :=
      (Finset.single_le_sum (f := fun i => (σ.nodes i).messages.count id)
        (fun i _ => Nat.zero_le _) (mem_range.mpr here')).trans total
    have same : p = q := by
      by_contra differ
      have eq : q.other = p.other.other := by cases p <;> cases q <;> simp_all [Port.other]
      rw [link, ← node, eq] at two
      rw [two, Option.toList_some, List.count_singleton_self] at first
      omega
    subst same
    exact ⟨target_injective here there node, rfl⟩
  · have least : (σ.nodes (target n k p)).messages.count id +
        (σ.nodes (target n j q)).messages.count id ≤ 1 :=
      (Finset.add_le_sum (f := fun i => (σ.nodes i).messages.count id)
        (fun i _ => Nat.zero_le _) (mem_range.mpr here') (mem_range.mpr there') node).trans total
    omega

/-- What a sender still holds of a message is what is in its link. -/
structure Aliased (n : Nat) (σ : Ring) : Prop where
  flits : ∀ id < σ.fresh, 1 ≤ (σ.heap id).flits
  held : ∀ k < n, ∀ p id, (σ.nodes k).outgoing p = some id →
    link n σ k p = some id ∧ 0 < σ.tof id

/-- A node counts a packet down, and forgets it once it is due. -/
structure Aged (k : Nat) (p : Port) (σ σ' : Ring) : Prop extends Same σ σ' where
  kept : ∀ j q x, (σ'.nodes j).outgoing q = some x → (σ.nodes j).outgoing q = some x
  tof : ∀ x, (σ.nodes k).outgoing p ≠ some x → σ'.tof x = σ.tof x
  due : ∀ x, (σ'.nodes k).outgoing p = some x → 0 < σ'.tof x

theorem aged (σ : Ring) (k : Nat) (p : Port) : Aged k p σ (σ.age k p) := by
  cases full : (σ.nodes k).outgoing p with
  | none =>
      have eq : σ.age k p = σ := by simp only [age, full]
      rw [eq]
      exact ⟨⟨rfl, rfl, fun _ => rfl, fun _ => rfl, fun _ => rfl, fun _ => rfl, fun _ => rfl,
        fun _ => rfl⟩, fun _ _ _ => id, fun _ _ => rfl, fun x taken => by simp [full] at taken⟩
  | some id =>
      have other (x : MsgId) (ne : (σ.nodes k).outgoing p ≠ some x) : x ≠ id := by
        rintro rfl
        exact ne full
      by_cases late : σ.tof id - 1 ≤ 0
      · have eq : σ.age k p = { σ with tof := Function.update σ.tof id (σ.tof id - 1) }.update k
            fun x => { x with outgoing := Function.update x.outgoing p none } := by
          simp [age, full, late]
        rw [eq]
        refine ⟨⟨rfl, rfl, ?_, ?_, ?_, ?_, ?_, ?_⟩, ?_, ?_, ?_⟩
        case refine_7 =>
          intro j q x taken
          rw [update_nodes] at taken
          split at taken
          · by_cases same : q = p
            · simp [same] at taken
            · simpa [same] using taken
          · exact taken
        case refine_8 => exact fun x ne => Function.update_of_ne (other x ne) _ _
        case refine_9 => simp [update_nodes]
        all_goals
          intro j
          rw [update_nodes]
          split <;> rfl
      · have eq : σ.age k p = { σ with tof := Function.update σ.tof id (σ.tof id - 1) } := by
          simp only [age, full, Function.update_self, late, if_false]
        rw [eq]
        refine ⟨⟨rfl, rfl, fun _ => rfl, fun _ => rfl, fun _ => rfl, fun _ => rfl, fun _ => rfl,
          fun _ => rfl⟩, fun _ _ _ taken => taken,
          fun x ne => Function.update_of_ne (other x ne) _ _, ?_⟩
        intro x taken
        cases full.symm.trans taken
        simpa using late

/-! ### Links and their senders -/

theorem Aged.aliased {p : Port} (step : Aged k p σ σ') (here : k < n) (counted : Counted n σ)
    (aliased : Aliased n σ) : Aliased n σ' := by
  refine ⟨by rw [step.fresh, step.heap]; exact aliased.flits, fun j hj q x taken => ?_⟩
  obtain ⟨slot, late⟩ := aliased.held j hj q x (step.kept j q x taken)
  rw [link, step.incoming]
  refine ⟨slot, ?_⟩
  by_cases mine : (σ.nodes k).outgoing p = some x
  · obtain ⟨rfl, rfl⟩ := counted.link_unique here hj (aliased.held k here p x mine).1 slot
    exact step.due x taken
  · rw [step.tof x mine]
    exact late

theorem Launched.aliased (step : Launched n k id σ σ') (here : k < n) (known : id < σ.fresh)
    (aliased : Aliased n σ) : Aliased n σ' := by
  refine ⟨by rw [step.fresh, step.heap]; exact aliased.flits, fun j hj q x taken => ?_⟩
  have flits := aliased.flits id known
  rw [step.outgoing] at taken
  by_cases mine : j = k ∧ q = port n k (σ.heap id).dst
  · rw [if_pos mine] at taken
    cases taken
    obtain ⟨rfl, rfl⟩ := mine
    rw [step.tof, Function.update_self]
    exact ⟨step.taken, by omega⟩
  · rw [if_neg mine] at taken
    obtain ⟨slot, late⟩ := aliased.held j hj q x taken
    rw [step.link_other here hj fun at_k same => mine ⟨at_k, same⟩, step.tof]
    refine ⟨slot, ?_⟩
    by_cases same : x = id
    · subst same
      rw [Function.update_self]
      omega
    · rwa [Function.update_of_ne same]

theorem Landed.aliased {p : Port} (step : Landed k p id σ σ') (here : k < n)
    (aliased : Aliased n σ) : Aliased n σ' := by
  refine ⟨by rw [step.fresh, step.heap]; exact aliased.flits, fun j hj q x taken => ?_⟩
  rw [step.outgoing] at taken
  obtain ⟨slot, late⟩ := aliased.held j hj q x taken
  rw [step.link_eq here hj, step.tof]
  split
  · -- A sender has forgotten what is due.
    next same =>
      obtain ⟨rfl, rfl⟩ := same
      cases (step.emptied here).symm.trans slot
      have due := step.due
      omega
  · exact ⟨slot, late⟩

theorem Injected.aliased {m : Message} (step : Injected k m σ σ') (flits : 1 ≤ m.flits)
    (aliased : Aliased n σ) : Aliased n σ' where
  flits := by
    intro x old
    rw [step.fresh] at old
    rw [step.heap]
    rcases Nat.lt_succ_iff_lt_or_eq.mp old with old | rfl
    · rw [Function.update_of_ne (Nat.ne_of_lt old)]
      exact aliased.flits x old
    · rwa [Function.update_self]
  held := by simpa only [link, step.outgoing, step.incoming, step.tof] using aliased.held

theorem HandedOver.aliased (step : HandedOver k id σ σ') (aliased : Aliased n σ) :
    Aliased n σ' where
  flits := by simpa only [step.heap, step.fresh] using aliased.flits
  held := by simpa only [link, step.outgoing, step.incoming, step.tof] using aliased.held

theorem Spliced.aliased (step : Spliced k σ σ') (aliased : Aliased n σ) : Aliased n σ' where
  flits := by simpa only [step.heap, step.fresh] using aliased.flits
  held := by simpa only [link, step.outgoing, step.incoming, step.tof] using aliased.held

/-! ## Cycles -/

structure Sound (n : Nat) (σ : Ring) : Prop where
  routed : Routed n σ
  ordered : Ordered n σ
  counted : Counted n σ
  aliased : Aliased n σ

namespace Sound

theorem inject (sound : Sound n σ) (two : 2 ≤ n) (here : k < n) {out : List Message}
    (valid : ∀ m ∈ out, m.src = k ∧ m.dst < n ∧ 1 ≤ m.flits) : Sound n (σ.inject k out) := by
  induction out generalizing σ with
  | nil => exact sound
  | cons m rest ih =>
      obtain ⟨src, dst, flits⟩ := valid m List.mem_cons_self
      have step := injected σ k m
      exact ih
        ⟨step.routed here src dst sound.routed, step.ordered two src sound.routed sound.ordered,
          step.counted here sound.counted, step.aliased flits sound.aliased⟩
        fun m mem => valid m (List.mem_cons_of_mem _ mem)

theorem drain (sound : Sound n σ) (two : 2 ≤ n) (here : k < n) {queue : List MsgId}
    (all : (σ.nodes k).outQueue = queue) : Sound n (σ.drain n k queue) := by
  induction queue generalizing σ with
  | nil => exact sound
  | cons id rest ih =>
      rw [Ring.drain]
      split
      · next free =>
          have step := launched all free
          have known : id < σ.fresh :=
            sound.routed.named k here id (.inr (.inl (all ▸ List.mem_cons_self)))
          refine ih ⟨step.routed here sound.routed, step.ordered two here sound.ordered,
            step.counted here sound.counted, step.aliased here known sound.aliased⟩ ?_
          have tail := step.queue
          rw [all] at tail
          exact (List.cons.inj tail).2.symm
      · exact sound

theorem land (sound : Sound n σ) (two : 2 ≤ n) (here : k < n) (p : Port) :
    Sound n (σ.land k p) := by
  cases full : (σ.nodes k).incoming p with
  | none =>
      have eq : σ.land k p = σ := by simp only [Ring.land, full]
      rwa [eq]
  | some id =>
      by_cases due : σ.tof id ≤ 0
      · have step := landed full due
        exact ⟨step.routed two here sound.routed, step.ordered two here sound.routed sound.ordered,
          step.counted sound.counted, step.aliased here sound.aliased⟩
      · have eq : σ.land k p = σ := by simp only [Ring.land, full, due, if_false]
        rwa [eq]

theorem handOver (sound : Sound n σ) (k : Nat) : Sound n (σ.handOver n k) := by
  rcases handedOver n k σ with eq | ⟨id, step⟩
  · rwa [eq]
  · exact ⟨step.routed sound.routed, step.ordered sound.ordered, step.counted sound.counted,
      step.aliased sound.aliased⟩

theorem tickNode (sound : Sound n σ) (two : 2 ≤ n) (here : k < n) {out : List Message}
    (valid : ∀ m ∈ out, m.src = k ∧ m.dst < n ∧ 1 ≤ m.flits) : Sound n (σ.tickNode n k out) :=
  (((((sound.inject two here valid).drain two here rfl).land two here .left).land two here
    .right).handOver k).handOver k

theorem age (sound : Sound n σ) (here : k < n) (p : Port) : Sound n (σ.age k p) := by
  have step := aged σ k p
  exact ⟨step.routed sound.routed, step.ordered sound.ordered, step.toSame.counted sound.counted,
    step.aliased here sound.counted sound.aliased⟩

theorem splice (sound : Sound n σ) (two : 2 ≤ n) (here : k < n) (step : Spliced k σ σ') :
    Sound n σ' :=
  ⟨step.routed here sound.routed, step.ordered two here sound.routed sound.ordered,
    step.counted sound.counted, step.aliased sound.aliased⟩

/-- Nothing ever stands in `ntwk_in_next`. -/
theorem inNext_unused (sound : Sound n σ) (here : k < n) :
    (σ.update k fun x => { x with inQueue := x.inQueue ++ x.inNext, inNext := [] }) = σ := by
  have unused := sound.routed.inNext k here
  have same : { σ.nodes k with
      inQueue := (σ.nodes k).inQueue ++ (σ.nodes k).inNext, inNext := [] } = σ.nodes k := by
    rw [unused, List.append_nil, ← unused]
  rw [Ring.update, same, Function.update_eq_self]

theorem tockNode (sound : Sound n σ) (two : 2 ≤ n) (here : k < n) : Sound n (σ.tockNode k) := by
  have aged := ((sound.splice two here (spliced σ k)).age here .left).age here .right
  rw [Ring.tockNode, aged.inNext_unused here]
  exact aged

theorem tick (sound : Sound n σ) (two : 2 ≤ n) {out : NodeId → List Message} (sends : Sends n out) :
    Sound n (σ.tick n out) := by
  refine List.foldlRecOn (List.range n) _ sound fun σ sound k mem => ?_
  have here := List.mem_range.mp mem
  exact sound.tickNode two here (sends k here)

theorem tock (sound : Sound n σ) (two : 2 ≤ n) : Sound n (σ.tock n) :=
  List.foldlRecOn (List.range n) _ sound fun _ sound _ mem =>
    sound.tockNode two (List.mem_range.mp mem)

theorem empty (n : Nat) : Sound n {} where
  routed := by
    constructor <;> simp [link]
  ordered := by
    intro s _ d _
    have stretches : stretch n {} s d = fun _ => [] := by
      funext k
      simp [stretch, link]
    simp [sent, arrived, onTheWay, Lane.flow, stretches]
  counted := by
    intro x
    simp [RingNode.messages]
  aliased := ⟨fun _ old => absurd old (Nat.not_lt_zero _), by simp⟩

theorem run (two : 2 ≤ n) (run : (machine n).Run (fun _ out => Sends n out) {} σ) : Sound n σ := by
  refine run.invariant (empty n) fun σ out σ' sound sends stepped => ?_
  cases stepped
  exact (sound.tick two sends).tock two

end Sound

/-! ## The ring delivers -/

/-- In every run every message that was sent is in one place of one node, a link holds the same
    message at both ends, a message is handed over at its destination only, and what a
    node has been handed from another is the first that one sent to it, in its order. -/
theorem ring_delivers (two : 2 ≤ n) (run : (machine n).Run (fun _ out => Sends n out) {} σ) :
    ((List.range n).flatMap fun k => (σ.nodes k).messages).Perm (List.range σ.fresh) ∧
      (∀ k < n, ∀ p id, (σ.nodes k).outgoing p = some id → link n σ k p = some id) ∧
      (∀ d < n, ∀ id ∈ (σ.nodes d).handed, (σ.heap id).dst = d) ∧
      ∀ s < n, ∀ d < n, (σ.nodes d).handed.filter (σ.Between s d) <+: σ.sent s d := by
  have sound := Sound.run two run
  refine ⟨?_, ?_, ?_, ?_⟩
  · refine List.perm_iff_count.mpr fun id => ?_
    rw [List.count_flatMap, List.count_range, ← sound.counted id]
    rfl
  · exact fun k here p id taken => (sound.aliased.held k here p id taken).1
  · exact fun d hd id mem => sound.routed.inbox d hd id (.inr mem)
  · intro s hs d hd
    rw [sound.ordered s hs d hd, arrived, List.filter_append, List.append_assoc]
    exact List.prefix_append _ _

instance (out : NodeId → List Message) : Decidable (Sends n out) := by
  unfold Sends
  infer_instance

/-- Two messages from node 0 pass node 1, which sends one of its own. -/
def crossing : List (NodeId → List Message) :=
  (fun k =>
    if k = 0 then [⟨0, 2, 0, .gets, 2, false⟩, ⟨0, 2, 8, .getm, 1, false⟩]
    else if k = 1 then [⟨1, 2, 0, .gets, 1, false⟩]
    else []) :: List.replicate 8 fun _ => []

private theorem crossing_run : (machine 4).Run (fun _ out => Sends 4 out) {}
    ((machine 4).attempt {} crossing) :=
  Machine.run_attempt _ (by decide +kernel)

theorem ring_delivers_crossing :
    let σ := (machine 4).attempt {} crossing
    (σ.nodes 2).handed = [2, 0, 1] ∧
      ((List.range 4).flatMap fun k => (σ.nodes k).messages).Perm (List.range σ.fresh) ∧
      (∀ k < 4, ∀ p id, (σ.nodes k).outgoing p = some id → link 4 σ k p = some id) ∧
      (∀ d < 4, ∀ id ∈ (σ.nodes d).handed, (σ.heap id).dst = d) ∧
      ∀ s < 4, ∀ d < 4, (σ.nodes d).handed.filter (σ.Between s d) <+: σ.sent s d :=
  ⟨by decide +kernel, ring_delivers (by decide) crossing_run⟩

end Ring

end Coherence
