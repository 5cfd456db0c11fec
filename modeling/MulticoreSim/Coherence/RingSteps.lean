import Mathlib.Algebra.BigOperators.Group.Finset.Basic
import Mathlib.Data.List.Range
import MulticoreSim.Library.Lane
import MulticoreSim.Coherence.Ring

/-! # The steps of the ring keep messages in their order

Messages from one node to another take one way round, and each stretch of it is
a queue. So read from the destination back to the source, what has been sent is
what has arrived and what is still on the way, in the order it was sent.
-/

namespace Coherence.Ring

variable {n k j s d : Nat}

/-! ## Routes -/

/-- The hops from `k` to `dst`. A message to its own sender goes out and comes back. -/
def togo (n k dst : Nat) : Nat :=
  if distance n k dst = 0 then 2
  else if n / 2 < distance n k dst then n - distance n k dst else distance n k dst

theorem distance_eq (here : k < n) (there : d < n) :
    distance n k d = if k ≤ d then d - k else d + n - k := by
  unfold distance
  split
  · next le =>
      have eq : d + n - k = (d - k) + n := by omega
      rw [eq, Nat.add_mod_right, Nat.mod_eq_of_lt (by omega)]
  · exact Nat.mod_eq_of_lt (by omega)

theorem target_right (here : k < n) : target n k .right = if k + 1 = n then 0 else k + 1 := by
  change (k + 1) % n = _
  split
  · next eq => rw [eq, Nat.mod_self]
  · exact Nat.mod_eq_of_lt (by omega)

theorem target_left (here : k < n) : target n k .left = if k = 0 then n - 1 else k - 1 := by
  change (k + (n - 1)) % n = _
  split
  · next eq => rw [eq, Nat.zero_add, Nat.mod_eq_of_lt (by omega)]
  · have eq : k + (n - 1) = (k - 1) + n := by omega
    rw [eq, Nat.add_mod_right, Nat.mod_eq_of_lt (by omega)]

theorem target_lt (here : k < n) (p : Port) : target n k p < n := by
  cases p <;> exact Nat.mod_lt _ (by omega)

/-- A link has one sender. -/
theorem target_injective (here : k < n) (here' : j < n) {p : Port}
    (same : target n k p = target n j p) : k = j := by
  cases p
  · rw [target_left here, target_left here'] at same
    split at same <;> split at same <;> omega
  · rw [target_right here, target_right here'] at same
    split at same <;> split at same <;> omega

theorem hop_lt (here : k < n) (d : Nat) : hop n k d < n := target_lt here _

theorem togo_pos (here : k < n) (there : d < n) : 0 < togo n k d := by
  have eq := distance_eq here there
  unfold togo
  split at eq <;> split <;> first | omega | (split <;> omega)

/-- The last hop ends at the destination, any other brings it one hop closer. -/
theorem hop_togo (two : 2 ≤ n) (here : k < n) (there : d < n) :
    (togo n k d = 1 → hop n k d = d) ∧
      (togo n k d ≠ 1 → hop n k d ≠ d ∧ togo n (hop n k d) d + 1 = togo n k d) := by
  have closer : ∀ k', k' < n → k' = hop n k d →
      (togo n k d = 1 → k' = d) ∧ (togo n k d ≠ 1 → k' ≠ d ∧ togo n k' d + 1 = togo n k d) := by
    intro k' here' eq
    have far := distance_eq here there
    have far' := distance_eq here' there
    unfold hop port at eq
    unfold togo
    generalize distance n k d = x at *
    generalize distance n k' d = y at *
    split at eq
    · rw [target_left here] at eq
      split_ifs at far far' eq ⊢ <;> omega
    · rw [target_right here] at eq
      split_ifs at far far' eq ⊢ <;> omega
  exact closer _ (hop_lt here d) rfl

/-- The nodes whose queues a message from `k` stands in, the last one first. -/
def routeFrom (n d : Nat) : Nat → Nat → List Nat
  | 0, _ => []
  | hops + 1, k => routeFrom n d hops (hop n k d) ++ [k]

def route (n s d : Nat) : List Nat := routeFrom n d (togo n s d) s

/-- On a route the hops to go count up from the last node. -/
theorem togo_routeFrom (two : 2 ≤ n) (there : d < n) {hops : Nat} (here : k < n)
    (far : togo n k d = hops) :
    (routeFrom n d hops k).map (togo n · d) = List.range' 1 hops ∧
      ∀ j ∈ routeFrom n d hops k, j < n := by
  induction hops generalizing k with
  | zero =>
      have pos := togo_pos here there
      omega
  | succ hops ih =>
      rw [routeFrom]
      by_cases last : hops = 0
      · subst last
        simp [routeFrom, far, here]
      · obtain ⟨-, closer⟩ := (hop_togo two here there).2 (by omega)
        obtain ⟨counts, bounds⟩ := ih (hop_lt here d) (by omega)
        refine ⟨?_, ?_⟩
        · rw [List.map_append, counts, List.range'_1_concat]
          simp [far, Nat.add_comm]
        · intro j mem
          rcases List.mem_append.mp mem with mem | mem
          · exact bounds j mem
          · rw [List.mem_singleton.mp mem]
            exact here

theorem nodup_route (two : 2 ≤ n) (here : s < n) (there : d < n) : (route n s d).Nodup := by
  refine List.Nodup.of_map (togo n · d) ?_
  rw [route, (togo_routeFrom two there here rfl).1]
  exact List.nodup_range'

theorem lt_of_route (two : 2 ≤ n) (here : s < n) (there : d < n) (mem : k ∈ route n s d) : k < n :=
  (togo_routeFrom two there here rfl).2 k mem

/-- A message starts at its source. -/
theorem route_source (here : s < n) (there : d < n) : ∃ front, route n s d = front ++ [s] := by
  have pos := togo_pos here there
  obtain ⟨hops, eq⟩ : ∃ hops, togo n s d = hops + 1 := ⟨togo n s d - 1, by omega⟩
  exact ⟨routeFrom n d hops (hop n s d), by rw [route, eq, routeFrom]⟩

/-- A node on a route is its last, or the next node on it is the one the message hops to. -/
theorem route_split (two : 2 ≤ n) (there : d < n) {hops : Nat} (here : k < n)
    (far : togo n k d = hops) (mem : j ∈ routeFrom n d hops k) :
    (hop n j d = d ∧ ∃ back, routeFrom n d hops k = j :: back) ∨
      hop n j d ≠ d ∧ ∃ front back, routeFrom n d hops k = front ++ hop n j d :: j :: back := by
  induction hops generalizing k with
  | zero => cases mem
  | succ hops ih =>
      rw [routeFrom] at mem ⊢
      by_cases last : hops = 0
      · subst last
        have eq : j = k := by simpa [routeFrom] using mem
        subst eq
        exact .inl ⟨(hop_togo two here there).1 far, [], rfl⟩
      · obtain ⟨other, closer⟩ := (hop_togo two here there).2 (by omega)
        rcases List.mem_append.mp mem with mem | mem
        · rcases ih (hop_lt here d) (by omega) mem with ⟨done, back, eq⟩ | ⟨on, front, back, eq⟩
          · exact .inl ⟨done, back ++ [k], by rw [eq, List.cons_append]⟩
          · exact .inr ⟨on, front, back ++ [k], by rw [eq]; simp⟩
        · have eq := List.mem_singleton.mp mem
          subst eq
          refine .inr ⟨other, ?_⟩
          obtain ⟨hops, rfl⟩ : ∃ more, hops = more + 1 := ⟨hops - 1, by omega⟩
          exact ⟨routeFrom n d hops (hop n (hop n j d) d), [], by rw [routeFrom]; simp⟩

/-! ## What stands on a route -/

/-- The message in the link that leaves `k` by port `p`. -/
def link (n : Nat) (σ : Ring) (k : Nat) (p : Port) : Option MsgId :=
  (σ.nodes (target n k p)).incoming p.other

/-- The message is from `s` to `d`. -/
def Between (σ : Ring) (s d : Nat) (id : MsgId) : Prop :=
  (σ.heap id).src = s ∧ (σ.heap id).dst = d

instance (σ : Ring) (s d : Nat) : DecidablePred (σ.Between s d) := by
  intro id
  unfold Between
  infer_instance

/-- The messages from `s` to `d` that wait in the queue of `k`, or in the link that they
    leave it by. -/
def stretch (n : Nat) (σ : Ring) (s d k : Nat) : List MsgId :=
  ((link n σ k (port n k d)).toList ++ (σ.nodes k).outQueue).filter (σ.Between s d)

/-- The messages from `s` to `d`, in the order `s` sent them. -/
def sent (σ : Ring) (s d : Nat) : List MsgId := (List.range σ.fresh).filter (σ.Between s d)

/-- The messages from `s` to `d` that have come to their end. -/
def arrived (σ : Ring) (s d : Nat) : List MsgId :=
  ((σ.nodes d).handed ++ (σ.nodes d).inQueue).filter (σ.Between s d)

/-- The messages from `s` to `d` that are on the way, the first first. -/
def onTheWay (n : Nat) (σ : Ring) (s d : Nat) : List MsgId :=
  Lane.flow (route n s d) (stretch n σ s d) ++ (σ.nodes s).outNext.filter (σ.Between s d)

/-- Where messages may be, by their sender and destination. -/
structure Routed (n : Nat) (σ : Ring) : Prop where
  named : ∀ k < n, ∀ id, id ∈ (σ.nodes k).outNext ∨ id ∈ (σ.nodes k).outQueue ∨
    (∃ p, (σ.nodes k).incoming p = some id) ∨ id ∈ (σ.nodes k).inQueue ∨
    id ∈ (σ.nodes k).handed → id < σ.fresh
  addressed : ∀ id < σ.fresh, (σ.heap id).src < n ∧ (σ.heap id).dst < n
  outNext : ∀ k < n, ∀ id ∈ (σ.nodes k).outNext, (σ.heap id).src = k
  outQueue : ∀ k < n, ∀ id ∈ (σ.nodes k).outQueue, k ∈ route n (σ.heap id).src (σ.heap id).dst
  links : ∀ k < n, ∀ p id, link n σ k p = some id →
    k ∈ route n (σ.heap id).src (σ.heap id).dst ∧ port n k (σ.heap id).dst = p
  inbox : ∀ k < n, ∀ id, id ∈ (σ.nodes k).inQueue ∨ id ∈ (σ.nodes k).handed → (σ.heap id).dst = k
  inNext : ∀ k < n, (σ.nodes k).inNext = []

/-- What was sent is what has arrived and what is on the way. -/
def Ordered (n : Nat) (σ : Ring) : Prop :=
  ∀ s < n, ∀ d < n, σ.sent s d = σ.arrived s d ++ onTheWay n σ s d

/-- All that the places of messages depend on is the same. -/
structure Same (σ σ' : Ring) : Prop where
  heap : σ'.heap = σ.heap
  fresh : σ'.fresh = σ.fresh
  outNext : ∀ k, (σ'.nodes k).outNext = (σ.nodes k).outNext
  outQueue : ∀ k, (σ'.nodes k).outQueue = (σ.nodes k).outQueue
  incoming : ∀ k, (σ'.nodes k).incoming = (σ.nodes k).incoming
  inQueue : ∀ k, (σ'.nodes k).inQueue = (σ.nodes k).inQueue
  inNext : ∀ k, (σ'.nodes k).inNext = (σ.nodes k).inNext
  handed : ∀ k, (σ'.nodes k).handed = (σ.nodes k).handed

variable {σ σ' : Ring}

theorem Same.trans {σ'' : Ring} (first : Same σ σ') (second : Same σ' σ'') : Same σ σ'' where
  heap := second.heap.trans first.heap
  fresh := second.fresh.trans first.fresh
  outNext k := (second.outNext k).trans (first.outNext k)
  outQueue k := (second.outQueue k).trans (first.outQueue k)
  incoming k := (second.incoming k).trans (first.incoming k)
  inQueue k := (second.inQueue k).trans (first.inQueue k)
  inNext k := (second.inNext k).trans (first.inNext k)
  handed k := (second.handed k).trans (first.handed k)

theorem Same.between (same : Same σ σ') (s d : Nat) : σ'.Between s d = σ.Between s d := by
  funext id
  simp only [Between, same.heap]

theorem Same.routed (same : Same σ σ') (routed : Routed n σ) : Routed n σ' where
  named := by simpa only [same.outNext, same.outQueue, same.incoming, same.inQueue, same.handed,
    same.fresh] using routed.named
  addressed := by simpa only [same.heap, same.fresh] using routed.addressed
  outNext := by simpa only [same.heap, same.outNext] using routed.outNext
  outQueue := by simpa only [same.heap, same.outQueue] using routed.outQueue
  links := by simpa only [link, same.heap, same.incoming] using routed.links
  inbox := by simpa only [same.heap, same.inQueue, same.handed] using routed.inbox
  inNext := by simpa only [same.inNext] using routed.inNext

theorem Same.ordered (same : Same σ σ') (ordered : Ordered n σ) : Ordered n σ' := by
  intro s hs d hd
  have old := ordered s hs d hd
  have stretches : stretch n σ' s d = stretch n σ s d := by
    funext k
    simp only [stretch, link, Between, same.heap, same.outQueue, same.incoming]
  simp only [sent, arrived, onTheWay, Between] at old ⊢
  simpa only [stretches, same.heap, same.fresh, same.outNext, same.inQueue, same.handed] using old

/-! ## The steps of a node -/

@[simp] theorem update_heap (σ : Ring) (k : Nat) (f : RingNode → RingNode) :
    (σ.update k f).heap = σ.heap := rfl

@[simp] theorem update_fresh (σ : Ring) (k : Nat) (f : RingNode → RingNode) :
    (σ.update k f).fresh = σ.fresh := rfl

theorem update_nodes (σ : Ring) (k : Nat) (f : RingNode → RingNode) (j : Nat) :
    (σ.update k f).nodes j = if j = k then f (σ.nodes j) else σ.nodes j := by
  simp only [update, Function.update_apply]
  split
  · next eq => rw [eq]
  · rfl

/-- The neighbour at the other end of a port's link. -/
theorem target_other (here : k < n) (p : Port) : target n (target n k p) p.other = k := by
  have bound := target_lt here p
  cases p
  · rw [Port.other, target_right bound, target_left here]
    split <;> split <;> omega
  · rw [Port.other, target_left bound, target_right here]
    split <;> split <;> omega

@[simp] theorem Port.other_other (p : Port) : p.other.other = p := by cases p <;> rfl

/-- A message leaves the queue for the link that was free. -/
structure Launched (n k : Nat) (id : MsgId) (σ σ' : Ring) : Prop where
  heap : σ'.heap = σ.heap
  fresh : σ'.fresh = σ.fresh
  outNext : ∀ j, (σ'.nodes j).outNext = (σ.nodes j).outNext
  queue : (σ.nodes k).outQueue = id :: (σ'.nodes k).outQueue
  outQueue : ∀ j ≠ k, (σ'.nodes j).outQueue = (σ.nodes j).outQueue
  free : link n σ k (port n k (σ.heap id).dst) = none
  taken : link n σ' k (port n k (σ.heap id).dst) = some id
  incoming : ∀ j p, (j ≠ target n k (port n k (σ.heap id).dst) ∨
    p ≠ (port n k (σ.heap id).dst).other) → (σ'.nodes j).incoming p = (σ.nodes j).incoming p
  inQueue : ∀ j, (σ'.nodes j).inQueue = (σ.nodes j).inQueue
  inNext : ∀ j, (σ'.nodes j).inNext = (σ.nodes j).inNext
  handed : ∀ j, (σ'.nodes j).handed = (σ.nodes j).handed
  outgoing : ∀ j p, (σ'.nodes j).outgoing p =
    if j = k ∧ p = port n k (σ.heap id).dst then some id else (σ.nodes j).outgoing p
  tof : σ'.tof = Function.update σ.tof id (σ.heap id).flits

theorem launched {id : MsgId} {rest : List MsgId} (queue : (σ.nodes k).outQueue = id :: rest)
    (free : σ.linkFree n k id) : Launched n k id σ (σ.launch n k id) := by
  have nodes (j : Nat) : (σ.launch n k id).nodes j =
      (((σ.update k fun x => { x with
          outQueue := x.outQueue.tail
          outgoing := Function.update x.outgoing (port n k (σ.heap id).dst) (some id) }).update
        (target n k (port n k (σ.heap id).dst)) fun x =>
          { x with incoming :=
              Function.update x.incoming (port n k (σ.heap id).dst).other (some id) }).nodes j) := rfl
  constructor
  case heap => rfl
  case fresh => rfl
  case free => exact free.2
  case taken => simp [link, nodes, update_nodes]
  case tof => rfl
  case outgoing =>
    intro j p
    rw [nodes, update_nodes, update_nodes]
    by_cases eq : j = k <;> by_cases same : p = port n k (σ.heap id).dst <;>
      split <;> simp [eq, same]
  case incoming =>
    intro j p other
    rw [nodes, update_nodes]
    split
    · next eq =>
        have ne := other.resolve_left (not_not.mpr eq)
        rw [update_nodes]
        split <;> simp [Function.update_of_ne ne]
    · rw [update_nodes]
      split <;> rfl
  case queue =>
    rw [nodes, update_nodes, update_nodes]
    split <;> simp [queue]
  case outQueue =>
    intro j ne
    rw [nodes, update_nodes, update_nodes, if_neg ne]
    split <;> rfl
  all_goals
    intro j
    rw [nodes, update_nodes, update_nodes]
    split <;> split <;> rfl

namespace Launched

variable {id : MsgId}

/-- The other links are as before. -/
theorem link_other (step : Launched n k id σ σ') (here : k < n) (there : j < n) {p : Port}
    (other : j = k → p ≠ port n k (σ.heap id).dst) : link n σ' j p = link n σ j p := by
  refine step.incoming _ _ ?_
  by_contra same
  simp only [not_or, not_not] at same
  have eq : p = port n k (σ.heap id).dst := by
    have flipped := congrArg Port.other same.2
    simpa using flipped
  subst eq
  exact other (target_injective there here same.1) rfl

/-- What stands on a stretch stays there. -/
theorem stretch_eq (step : Launched n k id σ σ') (here : k < n) (there : j < n) :
    stretch n σ' s d j = stretch n σ s d j := by
  have between : σ'.Between s d = σ.Between s d := by
    funext x
    simp only [Between, step.heap]
  simp only [stretch, between]
  by_cases eq : j = k
  · subst eq
    rw [step.queue]
    by_cases same : port n j d = port n j (σ.heap id).dst
    · rw [same, step.taken, step.free]
      rfl
    · rw [step.link_other here here fun _ => same]
      have foreign : ¬ σ.Between s d id := by
        rintro ⟨-, rfl⟩
        exact same rfl
      simp [List.filter_append, foreign]
  · rw [step.link_other here there fun same => absurd same eq, step.outQueue j eq]

theorem ordered (step : Launched n k id σ σ') (two : 2 ≤ n) (here : k < n)
    (ordered : Ordered n σ) : Ordered n σ' := by
  intro s hs d hd
  have old := ordered s hs d hd
  have flow : Lane.flow (route n s d) (stretch n σ' s d) = Lane.flow (route n s d) (stretch n σ s d) :=
    Lane.flow_congr fun j mem => step.stretch_eq here (lt_of_route two hs hd mem)
  simp only [sent, arrived, onTheWay, Between] at old ⊢
  simpa only [flow, step.heap, step.fresh, step.outNext, step.inQueue, step.handed] using old

theorem routed (step : Launched n k id σ σ') (here : k < n) (routed : Routed n σ) :
    Routed n σ' := by
  have queued : id ∈ (σ.nodes k).outQueue := by
    rw [step.queue]
    exact List.mem_cons_self
  have queues (j : Nat) {x : MsgId} (mem : x ∈ (σ'.nodes j).outQueue) :
      x ∈ (σ.nodes j).outQueue := by
    by_cases eq : j = k
    · subst eq
      rw [step.queue]
      exact List.mem_cons_of_mem _ mem
    · rwa [step.outQueue j eq] at mem
  have slots (j : Nat) (p : Port) {x : MsgId} (slot : (σ'.nodes j).incoming p = some x) :
      x = id ∨ (σ.nodes j).incoming p = some x := by
    by_cases same : j = target n k (port n k (σ.heap id).dst) ∧ p = (port n k (σ.heap id).dst).other
    · obtain ⟨rfl, rfl⟩ := same
      exact .inl (Option.some.inj (slot.symm.trans step.taken))
    · rw [step.incoming j p (by tauto)] at slot
      exact .inr slot
  constructor
  case named =>
    intro j hj x place
    simp only [step.outNext, step.inQueue, step.handed, step.fresh] at place ⊢
    rcases place with next | queue | ⟨p, slot⟩ | inbox
    · exact routed.named j hj x (.inl next)
    · exact routed.named j hj x (.inr (.inl (queues j queue)))
    · rcases slots j p slot with rfl | slot
      · exact routed.named k here x (.inr (.inl queued))
      · exact routed.named j hj x (.inr (.inr (.inl ⟨p, slot⟩)))
    · exact routed.named j hj x (.inr (.inr (.inr inbox)))
  case addressed =>
    rw [step.fresh, step.heap]
    exact routed.addressed
  case outNext =>
    intro j hj x mem
    rw [step.outNext] at mem
    rw [step.heap]
    exact routed.outNext j hj x mem
  case outQueue =>
    intro j hj x mem
    rw [step.heap]
    exact routed.outQueue j hj x (queues j mem)
  case links =>
    intro j hj p x slot
    rw [step.heap]
    by_cases other : j = k → p ≠ port n k (σ.heap id).dst
    · rw [step.link_other here hj other] at slot
      exact routed.links j hj p x slot
    · push Not at other
      obtain ⟨rfl, rfl⟩ := other
      cases slot.symm.trans step.taken
      exact ⟨routed.outQueue j hj _ queued, rfl⟩
  case inbox =>
    intro j hj x mem
    rw [step.inQueue, step.handed] at mem
    rw [step.heap]
    exact routed.inbox j hj x mem
  case inNext =>
    intro j hj
    rw [step.inNext]
    exact routed.inNext j hj

end Launched

/-- A message leaves its link at `k`: it has come to its end, or joins the queue. -/
structure Landed (k : Nat) (p : Port) (id : MsgId) (σ σ' : Ring) : Prop where
  heap : σ'.heap = σ.heap
  fresh : σ'.fresh = σ.fresh
  outNext : ∀ j, (σ'.nodes j).outNext = (σ.nodes j).outNext
  outQueue : ∀ j, (σ'.nodes j).outQueue =
    (σ.nodes j).outQueue ++ if j = k ∧ (σ.heap id).dst ≠ k then [id] else []
  inQueue : ∀ j, (σ'.nodes j).inQueue =
    (σ.nodes j).inQueue ++ if j = k ∧ (σ.heap id).dst = k then [id] else []
  full : (σ.nodes k).incoming p = some id
  incoming : ∀ j q, (σ'.nodes j).incoming q =
    if j = k ∧ q = p then none else (σ.nodes j).incoming q
  inNext : ∀ j, (σ'.nodes j).inNext = (σ.nodes j).inNext
  handed : ∀ j, (σ'.nodes j).handed = (σ.nodes j).handed
  outgoing : ∀ j, (σ'.nodes j).outgoing = (σ.nodes j).outgoing
  tof : σ'.tof = σ.tof
  due : σ.tof id ≤ 0

theorem landed {p : Port} {id : MsgId} (full : (σ.nodes k).incoming p = some id)
    (due : σ.tof id ≤ 0) : Landed k p id σ (σ.land k p) := by
  have step : σ.land k p = σ.update k fun x =>
      if (σ.heap id).dst = k then
        { x with inQueue := x.inQueue ++ [id], incoming := Function.update x.incoming p none }
      else
        { x with outQueue := x.outQueue ++ [id], incoming := Function.update x.incoming p none } := by
    simp only [land, full, due, if_true]
  rw [step]
  constructor
  case heap => rfl
  case fresh => rfl
  case full => exact full
  case due => exact due
  case tof => rfl
  case incoming =>
    intro j q
    rw [update_nodes]
    by_cases at_k : j = k
    · by_cases home : (σ.heap id).dst = k <;> by_cases eq : q = p <;> simp [at_k, home, eq]
    · simp [at_k]
  all_goals
    intro j
    rw [update_nodes]
    by_cases at_k : j = k
    · by_cases home : (σ.heap id).dst = k <;> simp [at_k, home]
    · simp [at_k]

namespace Landed

variable {p : Port} {id : MsgId}

/-- A link other than the one that was emptied is as before. -/
theorem link_eq (step : Landed k p id σ σ') (here : k < n) (there : j < n) (q : Port) :
    link n σ' j q = if j = target n k p ∧ q = p.other then none else link n σ j q := by
  have same : (target n j q = k ∧ q.other = p) ↔ (j = target n k p ∧ q = p.other) := by
    constructor
    · rintro ⟨rfl, rfl⟩
      exact ⟨(target_other there q).symm, by simp⟩
    · rintro ⟨rfl, rfl⟩
      exact ⟨target_other here p, by simp⟩
  rw [link, step.incoming, if_congr same rfl rfl, link]

theorem between (step : Landed k p id σ σ') (s d : Nat) : σ'.Between s d = σ.Between s d := by
  funext x
  simp only [Between, step.heap]

/-- A message of others leaves a stretch as it was. -/
theorem stretch_foreign (step : Landed k p id σ σ') (here : k < n) (there : j < n)
    (foreign : ¬ σ.Between s d id) : stretch n σ' s d j = stretch n σ s d j := by
  have emptied : link n σ (target n k p) p.other = some id := by
    rw [link, target_other here, Port.other_other]
    exact step.full
  simp only [stretch, step.between, List.filter_append, step.outQueue, step.link_eq here there]
  have queue : List.filter (σ.Between s d)
      (if j = k ∧ (σ.heap id).dst ≠ k then [id] else []) = [] := by
    split <;> simp [foreign]
  rw [queue, List.append_nil]
  split
  · next eq =>
      obtain ⟨rfl, leaves⟩ := eq
      rw [leaves, emptied]
      simp [foreign]
  · rfl

theorem emptied (step : Landed k p id σ σ') (here : k < n) :
    link n σ (target n k p) p.other = some id := by
  rw [link, target_other here, Port.other_other]
  exact step.full

/-- The message is the first of its sender's stretch, and leaves it. -/
theorem stretch_sender (step : Landed k p id σ σ') (here : k < n) (mine : σ.Between s d id)
    (leaves : port n (target n k p) d = p.other) (apart : target n k p ≠ k ∨ (σ.heap id).dst = k) :
    stretch n σ s d (target n k p) = id :: stretch n σ' s d (target n k p) := by
  have kept : ¬ (target n k p = k ∧ (σ.heap id).dst ≠ k) := by tauto
  simp only [stretch, step.between, step.outQueue, leaves, step.emptied here, if_neg kept,
    step.link_eq here (target_lt here p)]
  simp [mine]

/-- It joins the end of the stretch from `k` on. -/
theorem stretch_receiver (step : Landed k p id σ σ') (here : k < n) (mine : σ.Between s d id)
    (apart : target n k p ≠ k) (on : (σ.heap id).dst ≠ k) :
    stretch n σ' s d k = stretch n σ s d k ++ [id] := by
  have kept : ¬ (k = target n k p ∧ port n k d = p.other) := fun same => apart same.1.symm
  simp only [stretch, step.between, step.outQueue, step.link_eq here here, if_neg kept]
  simp [mine, on]

theorem stretch_elsewhere (step : Landed k p id σ σ') (here : k < n) (there : j < n)
    (sender : j ≠ target n k p) (receiver : j ≠ k ∨ (σ.heap id).dst = k) :
    stretch n σ' s d j = stretch n σ s d j := by
  have kept : ¬ (j = k ∧ (σ.heap id).dst ≠ k) := by tauto
  simp only [stretch, step.between, step.outQueue, step.link_eq here there, sender, false_and,
    if_false, if_neg kept, List.append_nil]

theorem ordered (step : Landed k p id σ σ') (two : 2 ≤ n) (here : k < n) (routed : Routed n σ)
    (ordered : Ordered n σ) : Ordered n σ' := by
  intro s hs d hd
  have old := ordered s hs d hd
  have sent_eq : σ'.sent s d = σ.sent s d := by
    simp only [sent, Between, step.heap, step.fresh]
  have arrived_eq : σ'.arrived s d = σ.arrived s d ++
      (if d = k ∧ (σ.heap id).dst = k then [id] else []).filter (σ.Between s d) := by
    simp only [arrived, step.between, step.handed, step.inQueue, List.filter_append,
      List.append_assoc]
  by_cases mine : σ.Between s d id
  · obtain ⟨on, leaves⟩ := routed.links _ (target_lt here p) _ _ (step.emptied here)
    rw [mine.1, mine.2] at on
    rw [mine.2] at leaves
    have hops : hop n (target n k p) d = k := by
      rw [hop, leaves]
      exact target_other here p
    have bound : ∀ j ∈ route n s d, j < n := fun j => lt_of_route two hs hd
    have nodup := nodup_route two hs hd
    rcases route_split two hd hs rfl on with ⟨done, back, eq⟩ | ⟨further, front, back, eq⟩
    · -- It came by the last stretch, and has arrived.
      have home : d = k := done.symm.trans hops
      have arrives : (σ.heap id).dst = k := mine.2.trans home
      have eq : route n s d = target n k p :: back := eq
      have flow : Lane.flow (target n k p :: back) (stretch n σ s d) =
          id :: Lane.flow (target n k p :: back) (stretch n σ' s d) := Lane.flow_leave
        (eq ▸ nodup) (step.stretch_sender here mine leaves (.inr arrives))
        fun j mem ne => step.stretch_elsewhere here (bound j (eq ▸ mem)) ne (.inr arrives)
      have joins : (if d = k ∧ (σ.heap id).dst = k then [id] else []).filter (σ.Between s d) =
          [id] := by
        rw [if_pos ⟨home, arrives⟩]
        simp [mine]
      rw [sent_eq, old, arrived_eq, joins]
      simp only [onTheWay, eq, flow, step.outNext, step.between]
      simp
    · -- It goes on to the stretch from `k`.
      rw [hops] at further eq
      have eq : route n s d = front ++ k :: target n k p :: back := eq
      have apart : target n k p ≠ k := by
        rw [eq] at nodup
        have tail := (List.nodup_append.mp nodup).2.1
        rintro same
        exact (List.nodup_cons.mp tail).1 (by simp [same])
      have passes : (σ.heap id).dst ≠ k := fun home => further (home.symm.trans mine.2)
      have flow : Lane.flow (front ++ k :: target n k p :: back) (stretch n σ' s d) =
          Lane.flow (front ++ k :: target n k p :: back) (stretch n σ s d) := Lane.flow_pass
        (eq ▸ nodup) (step.stretch_sender here mine leaves (.inl apart))
        (step.stretch_receiver here mine apart passes)
        fun j mem ne ne' => step.stretch_elsewhere here (bound j (eq ▸ mem)) ne (.inl ne')
      have none : (if d = k ∧ (σ.heap id).dst = k then [id] else []).filter (σ.Between s d) = [] := by
        rw [if_neg fun home => passes home.2]
        rfl
      rw [sent_eq, old, arrived_eq, none, List.append_nil]
      simp only [onTheWay, eq, flow, step.outNext, step.between]
  · have flow : Lane.flow (route n s d) (stretch n σ' s d) =
        Lane.flow (route n s d) (stretch n σ s d) :=
      Lane.flow_congr fun j mem => step.stretch_foreign here (lt_of_route two hs hd mem) mine
    have none : (if d = k ∧ (σ.heap id).dst = k then [id] else []).filter (σ.Between s d) = [] := by
      split <;> simp [mine]
    rw [sent_eq, old, arrived_eq, none, List.append_nil]
    simp only [onTheWay, flow, step.outNext, step.between]

theorem routed (step : Landed k p id σ σ') (two : 2 ≤ n) (here : k < n) (routed : Routed n σ) :
    Routed n σ' := by
  have known : id < σ.fresh := routed.named k here id (.inr (.inr (.inl ⟨p, step.full⟩)))
  obtain ⟨hs, hd⟩ := routed.addressed id known
  have queues (j : Nat) {x : MsgId} (mem : x ∈ (σ'.nodes j).outQueue) :
      x ∈ (σ.nodes j).outQueue ∨ x = id ∧ j = k ∧ (σ.heap id).dst ≠ k := by
    rw [step.outQueue, List.mem_append] at mem
    refine mem.imp_right fun mem => ?_
    split at mem
    · next at_k => exact ⟨List.mem_singleton.mp mem, at_k⟩
    · cases mem
  have inboxes (j : Nat) {x : MsgId} (mem : x ∈ (σ'.nodes j).inQueue) :
      x ∈ (σ.nodes j).inQueue ∨ x = id ∧ j = k ∧ (σ.heap id).dst = k := by
    rw [step.inQueue, List.mem_append] at mem
    refine mem.imp_right fun mem => ?_
    split at mem
    · next at_k => exact ⟨List.mem_singleton.mp mem, at_k⟩
    · cases mem
  constructor
  case named =>
    intro j hj x place
    simp only [step.outNext, step.handed, step.fresh] at place ⊢
    rcases place with next | queue | ⟨q, slot⟩ | inbox | taken
    · exact routed.named j hj x (.inl next)
    · rcases queues j queue with old | ⟨rfl, -⟩
      · exact routed.named j hj x (.inr (.inl old))
      · exact known
    · rw [step.incoming] at slot
      split at slot
      · cases slot
      · exact routed.named j hj x (.inr (.inr (.inl ⟨q, slot⟩)))
    · rcases inboxes j inbox with old | ⟨rfl, -⟩
      · exact routed.named j hj x (.inr (.inr (.inr (.inl old))))
      · exact known
    · exact routed.named j hj x (.inr (.inr (.inr (.inr taken))))
  case addressed =>
    rw [step.fresh, step.heap]
    exact routed.addressed
  case outNext =>
    intro j hj x mem
    rw [step.outNext] at mem
    rw [step.heap]
    exact routed.outNext j hj x mem
  case outQueue =>
    intro j hj x mem
    rw [step.heap]
    rcases queues j mem with old | ⟨rfl, rfl, passes⟩
    · exact routed.outQueue j hj x old
    · -- The next node of the route.
      obtain ⟨on, leaves⟩ := routed.links _ (target_lt here p) _ _ (step.emptied here)
      have hops : hop n (target n j p) (σ.heap x).dst = j := by
        rw [hop, leaves]
        exact target_other here p
      rcases route_split two hd hs rfl on with ⟨done, -⟩ | ⟨-, front, back, eq⟩
      · exact absurd (done.symm.trans hops) passes
      · rw [route, eq, hops]
        simp
  case links =>
    intro j hj q x slot
    rw [step.link_eq here hj] at slot
    rw [step.heap]
    split at slot
    · cases slot
    · exact routed.links j hj q x slot
  case inbox =>
    intro j hj x mem
    rw [step.handed] at mem
    rw [step.heap]
    rcases mem with mem | mem
    · rcases inboxes j mem with old | ⟨rfl, rfl, home⟩
      · exact routed.inbox j hj x (.inl old)
      · exact home
    · exact routed.inbox j hj x (.inr mem)
  case inNext =>
    intro j hj
    rw [step.inNext]
    exact routed.inNext j hj

end Landed

/-- A node hands the first message of its inbox over. -/
structure HandedOver (k : Nat) (id : MsgId) (σ σ' : Ring) : Prop where
  heap : σ'.heap = σ.heap
  fresh : σ'.fresh = σ.fresh
  outNext : ∀ j, (σ'.nodes j).outNext = (σ.nodes j).outNext
  outQueue : ∀ j, (σ'.nodes j).outQueue = (σ.nodes j).outQueue
  incoming : ∀ j, (σ'.nodes j).incoming = (σ.nodes j).incoming
  inNext : ∀ j, (σ'.nodes j).inNext = (σ.nodes j).inNext
  inbox : (σ.nodes k).inQueue = id :: (σ'.nodes k).inQueue
  handed : (σ'.nodes k).handed = (σ.nodes k).handed ++ [id]
  others : ∀ j ≠ k, (σ'.nodes j).inQueue = (σ.nodes j).inQueue ∧
    (σ'.nodes j).handed = (σ.nodes j).handed
  outgoing : ∀ j, (σ'.nodes j).outgoing = (σ.nodes j).outgoing
  tof : σ'.tof = σ.tof

theorem handedOver (n k : Nat) (σ : Ring) :
    σ.handOver n k = σ ∨ ∃ id, HandedOver k id σ (σ.handOver n k) := by
  unfold handOver
  split
  · exact .inl rfl
  · next id rest inbox =>
      split
      · refine .inr ⟨id, ?_⟩
        constructor
        case others =>
          intro j ne
          simp [update_nodes, ne]
        case inbox => simp [update_nodes, inbox]
        case handed => simp [update_nodes]
        all_goals first | rfl | (intro j; rw [update_nodes]; split <;> rfl)
      · split
        · refine .inr ⟨id, ?_⟩
          constructor
          case others =>
            intro j ne
            simp [update_nodes, ne]
          case inbox => simp [update_nodes, inbox]
          case handed => simp [update_nodes]
          all_goals first | rfl | (intro j; rw [update_nodes]; split <;> rfl)
        · exact .inl rfl

namespace HandedOver

variable {id : MsgId}

/-- The messages at their end are the same. -/
theorem ended (step : HandedOver k id σ σ') (j : Nat) :
    (σ'.nodes j).handed ++ (σ'.nodes j).inQueue = (σ.nodes j).handed ++ (σ.nodes j).inQueue := by
  by_cases eq : j = k
  · rw [eq, step.handed, step.inbox]
    simp
  · obtain ⟨inbox, handed⟩ := step.others j eq
    rw [inbox, handed]

theorem ended_mem (step : HandedOver k id σ σ') (j : Nat) (x : MsgId) :
    x ∈ (σ'.nodes j).inQueue ∨ x ∈ (σ'.nodes j).handed ↔
      x ∈ (σ.nodes j).inQueue ∨ x ∈ (σ.nodes j).handed := by
  have same := congrArg (x ∈ ·) (step.ended j)
  simp only [List.mem_append, eq_iff_iff] at same
  rw [or_comm, same, or_comm]

theorem ordered (step : HandedOver k id σ σ') (ordered : Ordered n σ) : Ordered n σ' := by
  intro s hs d hd
  have old := ordered s hs d hd
  have stretches : stretch n σ' s d = stretch n σ s d := by
    funext k
    simp only [stretch, link, Between, step.heap, step.outQueue, step.incoming]
  simp only [sent, arrived, onTheWay, Between] at old ⊢
  simpa only [stretches, step.heap, step.fresh, step.outNext, step.ended] using old

theorem routed (step : HandedOver k id σ σ') (routed : Routed n σ) : Routed n σ' where
  named := by simpa only [step.outNext, step.outQueue, step.incoming, step.ended_mem, step.fresh]
    using routed.named
  addressed := by simpa only [step.heap, step.fresh] using routed.addressed
  outNext := by simpa only [step.heap, step.outNext] using routed.outNext
  outQueue := by simpa only [step.heap, step.outQueue] using routed.outQueue
  links := by simpa only [link, step.heap, step.incoming] using routed.links
  inbox := by simpa only [step.heap, step.ended_mem] using routed.inbox
  inNext := by simpa only [step.inNext] using routed.inNext

end HandedOver

/-- The engine of `k` sends a message, which has a new name. -/
structure Injected (k : Nat) (m : Message) (σ σ' : Ring) : Prop where
  heap : σ'.heap = Function.update σ.heap σ.fresh m
  fresh : σ'.fresh = σ.fresh + 1
  outNext : ∀ j, (σ'.nodes j).outNext = (σ.nodes j).outNext ++ if j = k then [σ.fresh] else []
  outQueue : ∀ j, (σ'.nodes j).outQueue = (σ.nodes j).outQueue
  incoming : ∀ j, (σ'.nodes j).incoming = (σ.nodes j).incoming
  inQueue : ∀ j, (σ'.nodes j).inQueue = (σ.nodes j).inQueue
  inNext : ∀ j, (σ'.nodes j).inNext = (σ.nodes j).inNext
  handed : ∀ j, (σ'.nodes j).handed = (σ.nodes j).handed
  outgoing : ∀ j, (σ'.nodes j).outgoing = (σ.nodes j).outgoing
  tof : σ'.tof = σ.tof

theorem injected (σ : Ring) (k : Nat) (m : Message) :
    Injected k m σ { σ.update k fun x => { x with outNext := x.outNext ++ [σ.fresh] } with
      heap := Function.update σ.heap σ.fresh m
      fresh := σ.fresh + 1 } := by
  constructor
  case heap => rfl
  case fresh => rfl
  case tof => rfl
  all_goals
    intro j
    simp only [update, Function.update_apply]
    split <;> simp [*]

namespace Injected

variable {m : Message}

/-- The messages there were are between the same nodes as before. -/
theorem between_old (step : Injected k m σ σ') {x : MsgId} (old : x < σ.fresh) :
    σ'.Between s d x ↔ σ.Between s d x := by
  simp only [Between, step.heap, Function.update_of_ne (Nat.ne_of_lt old)]

theorem filter_old (step : Injected k m σ σ') {xs : List MsgId} (old : ∀ x ∈ xs, x < σ.fresh) :
    xs.filter (σ'.Between s d) = xs.filter (σ.Between s d) := by
  refine List.filter_congr fun x mem => ?_
  simp only [step.between_old (old x mem)]

theorem between_new (step : Injected k m σ σ') :
    σ'.Between s d σ.fresh ↔ m.src = s ∧ m.dst = d := by
  simp only [Between, step.heap, Function.update_self]

theorem ordered (step : Injected k m σ σ') (two : 2 ≤ n) (from_k : m.src = k)
    (routed : Routed n σ) (ordered : Ordered n σ) : Ordered n σ' := by
  intro s hs d hd
  have old := ordered s hs d hd
  have sent_eq : σ'.sent s d = σ.sent s d ++ [σ.fresh].filter (σ'.Between s d) := by
    rw [sent, step.fresh, List.range_succ, List.filter_append, sent,
      step.filter_old fun x mem => List.mem_range.mp mem]
  have arrived_eq : σ'.arrived s d = σ.arrived s d := by
    rw [arrived, step.handed, step.inQueue, arrived]
    refine step.filter_old fun x mem => routed.named d hd x ?_
    rcases List.mem_append.mp mem with mem | mem
    · exact .inr (.inr (.inr (.inr mem)))
    · exact .inr (.inr (.inr (.inl mem)))
  have stretches : ∀ j ∈ route n s d, stretch n σ' s d j = stretch n σ s d j := by
    intro j mem
    have there := lt_of_route two hs hd mem
    rw [stretch, link, step.incoming, step.outQueue, stretch, link]
    refine step.filter_old fun x mem => ?_
    rcases List.mem_append.mp mem with mem | mem
    · exact routed.named _ (target_lt there _) x (.inr (.inr (.inl ⟨_, Option.mem_toList.mp mem⟩)))
    · exact routed.named j there x (.inr (.inl mem))
  have next : (σ'.nodes s).outNext.filter (σ'.Between s d) =
      (σ.nodes s).outNext.filter (σ.Between s d) ++ [σ.fresh].filter (σ'.Between s d) := by
    rw [step.outNext, List.filter_append,
      step.filter_old fun x mem => routed.named s hs x (.inl mem)]
    congr 1
    split
    · rfl
    · next other =>
        have foreign : ¬ σ'.Between s d σ.fresh :=
          fun mine => other ((step.between_new.mp mine).1.symm.trans from_k)
        simp [foreign]
  rw [sent_eq, old, arrived_eq, onTheWay, onTheWay, Lane.flow_congr stretches, next]
  simp only [List.append_assoc]

theorem routed (step : Injected k m σ σ') (here : k < n) (from_k : m.src = k)
    (valid : m.dst < n) (routed : Routed n σ) : Routed n σ' := by
  have same {x : MsgId} (old : x < σ.fresh) : σ'.heap x = σ.heap x := by
    rw [step.heap, Function.update_of_ne (Nat.ne_of_lt old)]
  constructor
  case named =>
    intro j hj x place
    rw [step.outNext, step.outQueue, step.incoming, step.inQueue, step.handed,
      List.mem_append] at place
    rw [step.fresh]
    rcases place with (next | new) | rest
    · exact Nat.lt_succ_of_lt (routed.named j hj x (.inl next))
    · split at new
      · rw [List.mem_singleton.mp new]
        exact Nat.lt_succ_self _
      · cases new
    · exact Nat.lt_succ_of_lt (routed.named j hj x (.inr rest))
  case addressed =>
    intro x old
    rw [step.fresh] at old
    rcases Nat.lt_succ_iff_lt_or_eq.mp old with old | rfl
    · rw [same old]
      exact routed.addressed x old
    · rw [step.heap, Function.update_self, from_k]
      exact ⟨here, valid⟩
  case outNext =>
    intro j hj x mem
    rw [step.outNext, List.mem_append] at mem
    rcases mem with mem | mem
    · rw [same (routed.named j hj x (.inl mem))]
      exact routed.outNext j hj x mem
    · split at mem
      · next eq =>
          rw [List.mem_singleton.mp mem, step.heap, Function.update_self, from_k, eq]
      · cases mem
  case outQueue =>
    intro j hj x mem
    rw [step.outQueue] at mem
    rw [same (routed.named j hj x (.inr (.inl mem)))]
    exact routed.outQueue j hj x mem
  case links =>
    intro j hj p x slot
    rw [link, step.incoming] at slot
    rw [same (routed.named _ (target_lt hj p) x (.inr (.inr (.inl ⟨_, slot⟩))))]
    exact routed.links j hj p x slot
  case inbox =>
    intro j hj x mem
    rw [step.inQueue, step.handed] at mem
    rw [same (routed.named j hj x (.inr (.inr (.inr mem))))]
    exact routed.inbox j hj x mem
  case inNext =>
    intro j hj
    rw [step.inNext]
    exact routed.inNext j hj

end Injected

/-- What the engine of `k` has sent joins the queue. -/
structure Spliced (k : Nat) (σ σ' : Ring) : Prop where
  heap : σ'.heap = σ.heap
  fresh : σ'.fresh = σ.fresh
  outNext : ∀ j, (σ'.nodes j).outNext = if j = k then [] else (σ.nodes j).outNext
  outQueue : ∀ j, (σ'.nodes j).outQueue =
    (σ.nodes j).outQueue ++ if j = k then (σ.nodes k).outNext else []
  incoming : ∀ j, (σ'.nodes j).incoming = (σ.nodes j).incoming
  inQueue : ∀ j, (σ'.nodes j).inQueue = (σ.nodes j).inQueue
  inNext : ∀ j, (σ'.nodes j).inNext = (σ.nodes j).inNext
  handed : ∀ j, (σ'.nodes j).handed = (σ.nodes j).handed
  outgoing : ∀ j, (σ'.nodes j).outgoing = (σ.nodes j).outgoing
  tof : σ'.tof = σ.tof

theorem spliced (σ : Ring) (k : Nat) :
    Spliced k σ (σ.update k fun x =>
      { x with cacheIn := none, outQueue := x.outQueue ++ x.outNext, outNext := [] }) := by
  constructor
  case heap => rfl
  case fresh => rfl
  case tof => rfl
  all_goals
    intro j
    rw [update_nodes]
    by_cases eq : j = k <;> simp [eq]

namespace Spliced

theorem between (step : Spliced k σ σ') (s d : Nat) : σ'.Between s d = σ.Between s d := by
  funext x
  simp only [Between, step.heap]

theorem stretch_eq (step : Spliced k σ σ') (j : Nat) :
    stretch n σ' s d j = stretch n σ s d j ++
      (if j = k then (σ.nodes k).outNext else []).filter (σ.Between s d) := by
  simp only [stretch, link, step.between, step.incoming, step.outQueue, List.filter_append,
    List.append_assoc]

/-- It is all from `k` itself. -/
theorem foreign (routed : Routed n σ) (here : k < n) (other : s ≠ k) :
    (σ.nodes k).outNext.filter (σ.Between s d) = [] := by
  refine List.filter_eq_nil_iff.mpr fun x mem mine => other ?_
  rw [← routed.outNext k here x mem]
  exact (of_decide_eq_true mine).1.symm

theorem ordered (step : Spliced k σ σ') (two : 2 ≤ n) (here : k < n) (routed : Routed n σ)
    (ordered : Ordered n σ) : Ordered n σ' := by
  intro s hs d hd
  have old := ordered s hs d hd
  have sent_eq : σ'.sent s d = σ.sent s d := by
    simp only [sent, Between, step.heap, step.fresh]
  have arrived_eq : σ'.arrived s d = σ.arrived s d := by
    simp only [arrived, Between, step.heap, step.handed, step.inQueue]
  rw [sent_eq, old, arrived_eq]
  congr 1
  simp only [onTheWay, step.outNext, step.between]
  by_cases eq : s = k
  · subst eq
    obtain ⟨front, path⟩ := route_source hs hd
    have flow : Lane.flow (front ++ [s]) (stretch n σ' s d) =
        Lane.flow (front ++ [s]) (stretch n σ s d) ++
          (σ.nodes s).outNext.filter (σ.Between s d) := Lane.flow_join
      (path ▸ nodup_route two hs hd) (by rw [step.stretch_eq, if_pos rfl])
      (fun j _ ne => by rw [step.stretch_eq, if_neg ne]; simp)
    rw [path, flow, if_pos rfl]
    simp
  · have none := foreign (d := d) routed here eq
    have stretches : stretch n σ' s d = stretch n σ s d := by
      funext j
      rw [step.stretch_eq]
      split <;> simp [none]
    rw [stretches, if_neg eq]

theorem routed (step : Spliced k σ σ') (here : k < n) (routed : Routed n σ) :
    Routed n σ' := by
  have queues (j : Nat) {x : MsgId} (mem : x ∈ (σ'.nodes j).outQueue) :
      x ∈ (σ.nodes j).outQueue ∨ x ∈ (σ.nodes k).outNext ∧ j = k := by
    rw [step.outQueue, List.mem_append] at mem
    refine mem.imp_right fun mem => ?_
    split at mem
    · next eq => exact ⟨mem, eq⟩
    · cases mem
  have nexts (j : Nat) {x : MsgId} (mem : x ∈ (σ'.nodes j).outNext) : x ∈ (σ.nodes j).outNext := by
    rw [step.outNext] at mem
    split at mem
    · cases mem
    · exact mem
  constructor
  case named =>
    intro j hj x place
    rw [step.incoming, step.inQueue, step.handed] at place
    rw [step.fresh]
    rcases place with next | queue | rest
    · exact routed.named j hj x (.inl (nexts j next))
    · rcases queues j queue with old | ⟨old, -⟩
      · exact routed.named j hj x (.inr (.inl old))
      · exact routed.named k here x (.inl old)
    · exact routed.named j hj x (.inr (.inr rest))
  case addressed =>
    rw [step.fresh, step.heap]
    exact routed.addressed
  case outNext =>
    intro j hj x mem
    rw [step.heap]
    exact routed.outNext j hj x (nexts j mem)
  case outQueue =>
    intro j hj x mem
    rw [step.heap]
    rcases queues j mem with old | ⟨new, rfl⟩
    · exact routed.outQueue j hj x old
    · -- Its own node is the first of its route.
      have own := routed.outNext j hj x new
      obtain ⟨hs, hd⟩ := routed.addressed x (routed.named j hj x (.inl new))
      obtain ⟨front, path⟩ := route_source hs hd
      rw [path, own]
      simp
  case links =>
    intro j hj p x slot
    rw [link, step.incoming] at slot
    rw [step.heap]
    exact routed.links j hj p x slot
  case inbox =>
    intro j hj x mem
    rw [step.inQueue, step.handed] at mem
    rw [step.heap]
    exact routed.inbox j hj x mem
  case inNext =>
    intro j hj
    rw [step.inNext]
    exact routed.inNext j hj

end Spliced

end Coherence.Ring
