import Mathlib.Algebra.GroupWithZero.Nat
import MulticoreSim.Coherence.RingMoves

/-! # The ring delivers in time

In every cycle each node has both its turns, so in every cycle every message that is
on its way comes nearer its end. How many cycles that may take follows from how many
messages share the ring.
-/

open Finset (mem_range)

namespace Coherence.Ring

variable {n k F T r : Nat} {σ σ' : Ring} {id x : MsgId} {p : Port} {pl : Place} {w : Nat} {t : Turn}

/-! ## One turn -/

/-- A stretch of moves: nobody is taken back, and `more` messages set out. -/
structure Onward (n F T : Nat) (σ σ' : Ring) (more : Nat) : Prop extends Forward n F T σ σ' where
  roomy : Roomy n F T σ'
  load : underway n σ' ≤ underway n σ + more

namespace Onward

theorem refl (roomy : Roomy n F T σ) : Onward n F T σ σ 0 := ⟨.refl σ, roomy, le_rfl⟩

theorem trans {σ'' : Ring} {a b : Nat} (first : Onward n F T σ σ' a) (second : Onward n F T σ' σ'' b) :
    Onward n F T σ σ'' (a + b) where
  toForward := first.toForward.trans second.toForward
  roomy := second.roomy
  load := by
    have := first.load
    have := second.load
    omega

end Onward

theorem Injected.load {m : Message} (step : Injected k m σ σ') (roomy : Roomy n F T σ) :
    underway n σ' = underway n σ + 1 := by
  have parts : ∑ j ∈ Finset.range n, (σ.nodes j).handed.length ≤ σ.named := by
    rw [← roomy.sum_length]
    refine Finset.sum_le_sum fun j _ => ?_
    simp only [RingNode.messages, List.length_append]
    omega
  have named : σ'.named = σ.named + 1 := step.fresh
  simp only [underway, step.handed, named]
  omega

theorem Roomy.inject (two : 2 ≤ n) (here : k < n) {out : List Message}
    (valid : ∀ m ∈ out, m.src = k ∧ m.dst < n ∧ 1 ≤ m.flits) (few : ∀ m ∈ out, m.flits ≤ F)
    (roomy : Roomy n F T σ) (room : underway n σ + out.length ≤ T) :
    Onward n F T σ (σ.inject k out) out.length := by
  induction out generalizing σ with
  | nil => exact .refl roomy
  | cons m rest ih =>
      obtain ⟨src, dst, flits⟩ := valid m List.mem_cons_self
      have step := injected σ k m
      have more := step.load roomy
      rw [List.length_cons] at room
      have roomy' := step.roomy two here src dst flits (few m List.mem_cons_self) (by omega) roomy
      have onward := ih (fun m mem => valid m (List.mem_cons_of_mem _ mem))
        (fun m mem => few m (List.mem_cons_of_mem _ mem)) roomy' (by omega)
      have first : Onward n F T σ _ 1 :=
        ⟨step.forward roomy.sound fun j => by simp only [update, Function.update_apply]; split <;> simp [*],
          roomy', more.le⟩
      rw [List.length_cons, Nat.add_comm]
      exact first.trans onward

/-- The link of the first message that is left in the queue is taken. -/
theorem Roomy.drain (two : 2 ≤ n) (here : k < n) {queue : List MsgId} (all : (σ.nodes k).outQueue = queue)
    (roomy : Roomy n F T σ) : Onward n F T σ (σ.drain n k queue) 0 ∧
      ∀ first, ((σ.drain n k queue).nodes k).outQueue.head? = some first →
        link n (σ.drain n k queue) k (port n k ((σ.drain n k queue).heap first).dst) ≠ none := by
  induction queue generalizing σ with
  | nil => exact ⟨.refl roomy, fun first head => by simp [Ring.drain, all] at head⟩
  | cons id rest ih =>
      rw [Ring.drain]
      split
      · next free =>
          have step := launched all free
          have roomy' := step.roomy two here roomy
          have tail := step.queue
          rw [all] at tail
          obtain ⟨onward, stops⟩ := ih (List.cons.inj tail).2.symm roomy'
          refine ⟨.trans (a := 0) ⟨step.forward here roomy' fun j => ?_, roomy', ?_⟩ onward, stops⟩
          · simp only [launch, update, Function.update_apply]
            split <;> split <;> simp [*]
          · exact (underway_congr step.fresh step.handed).le
      · next taken =>
          refine ⟨.refl roomy, fun first head none => taken ?_⟩
          rw [all] at head
          cases head
          refine ⟨?_, none⟩
          cases held : (σ.nodes k).outgoing (port n k (σ.heap id).dst) with
          | none => rfl
          | some x => cases none.symm.trans (roomy.sound.aliased.held k here _ x held).1

theorem land_cacheIn (σ : Ring) (k : Nat) (p : Port) (j : Nat) :
    ((σ.land k p).nodes j).cacheIn = (σ.nodes j).cacheIn := by
  unfold land
  split
  · rfl
  · split
    · rw [update_nodes]
      split
      · split <;> rfl
      · rfl
    · rfl

/-- What is left on the port has not arrived. -/
theorem Roomy.land (two : 2 ≤ n) (here : k < n) (p : Port) (roomy : Roomy n F T σ) :
    Onward n F T σ (σ.land k p) 0 ∧ (σ.land k p).tof = σ.tof ∧
      (∀ x, ((σ.land k p).nodes k).incoming p = some x → 0 < σ.tof x) ∧
      ∀ q, q ≠ p → ((σ.land k p).nodes k).incoming q = (σ.nodes k).incoming q := by
  cases full : (σ.nodes k).incoming p with
  | none =>
      have eq : σ.land k p = σ := by simp only [Ring.land, full]
      rw [eq]
      refine ⟨.refl roomy, rfl, fun x held => ?_, fun _ _ => rfl⟩
      cases full.symm.trans held
  | some id =>
      by_cases due : σ.tof id ≤ 0
      · have step := landed full due
        have roomy' := step.roomy two here roomy
        refine ⟨⟨step.forward two here roomy roomy' (land_cacheIn σ k p), roomy', ?_⟩, step.tof, ?_, ?_⟩
        · exact (underway_congr step.fresh step.handed).le
        · intro x held
          rw [step.incoming, if_pos ⟨rfl, rfl⟩] at held
          cases held
        · intro q other
          rw [step.incoming, if_neg fun same => other same.2]
      · have eq : σ.land k p = σ := by simp only [Ring.land, full, due, if_false]
        rw [eq]
        refine ⟨.refl roomy, rfl, fun x held => ?_, fun _ _ => rfl⟩
        cases full.symm.trans held
        exact not_le.mp due

theorem handOver_cacheIn (n : Nat) (σ : Ring) (k : Nat) {j : Nat} (other : j ≠ k) :
    ((σ.handOver n k).nodes j).cacheIn = (σ.nodes j).cacheIn := by
  unfold handOver
  split
  · rfl
  · split
    · rw [update_nodes, if_neg other]
    · split
      · rw [update_nodes, if_neg other]
      · rfl

theorem Roomy.handOver (here : k < n) (roomy : Roomy n F T σ) : Onward n F T σ (σ.handOver n k) 0 := by
  rcases handedOver n k σ with eq | ⟨id, step⟩
  · rw [eq]
    exact .refl roomy
  · have less := step.underway_eq here roomy
    exact ⟨step.forward roomy.sound fun j other => handOver_cacheIn n σ k other, step.roomy here roomy, by omega⟩

/-- An engine that is not busy is handed the first message. -/
theorem handOver_first {rest : List MsgId} (inbox : (σ.nodes k).inQueue = id :: rest) (free : busy n σ k = 0) :
    HandedOver k id σ (σ.handOver n k) := by
  rcases handedOver n k σ with eq | ⟨y, step⟩
  · exfalso
    have taken : ((σ.handOver n k).nodes k).inQueue = rest := by
      unfold busy at free
      unfold Ring.handOver
      rw [inbox]
      split
      · next eq => cases eq
      · next y rest' eq =>
          cases eq
          split
          · simp [update_nodes]
          · next other =>
              rw [if_pos (by simpa [other] using free)]
              simp [update_nodes]
    rw [eq, inbox] at taken
    exact List.cons_ne_self _ _ taken
  · have same := step.inbox
    rw [inbox] at same
    cases same
    exact step

/-! ### What it is waited for -/

theorem At.of_queue {j a : Nat} (here : At n σ id (.queue j a p) w) : j < n ∧ wait n σ j p = w ∧
    ∃ first, (σ.nodes j).outQueue.head? = some first ∧ port n j (σ.heap first).dst = p := by
  cases here with
  | queue bound queue head => exact ⟨bound, rfl, _, head, rfl⟩

theorem At.of_link {j : Nat} (here : At n σ id (.link j p) w) :
    j < n ∧ wait n σ j p = w ∧ Ring.link n σ j p = some id := by
  cases here with
  | link bound slot => exact ⟨bound, rfl, slot⟩

theorem At.of_inbox {j a : Nat} (here : At n σ id (.inbox j a) w) : j < n ∧ busy n σ j = w ∧
    ∃ pre post, (σ.nodes j).inQueue = pre ++ id :: post ∧ pre.length = a := by
  cases here with
  | inbox bound queue => exact ⟨bound, rfl, _, _, queue, rfl⟩

theorem free_of_wait (free : wait n σ k p = 0) : link n σ k p = none := by
  cases held : link n σ k p with
  | none => rfl
  | some x =>
      rw [wait_of_link held] at free
      cases free

theorem held_of_wait (held : wait n σ k p = w + 1) : ∃ x, link n σ k p = some x ∧ (σ.tof x).toNat = w := by
  cases slot : link n σ k p with
  | none =>
      rw [wait_of_free slot] at held
      cases held
  | some x =>
      rw [wait_of_link slot] at held
      exact ⟨x, rfl, Nat.succ.inj held⟩

/-! ### The parts of a turn -/

/-- Whose way is free sets out. -/
theorem drain_takes (two : 2 ≤ n) (here : k < n) (roomy : Roomy n F T σ) :
    Takes n F T (fun pl w => w = 0 ∧ ∃ a p, pl = .queue k a p) σ (σ.drain n k (σ.nodes k).outQueue) := by
  obtain ⟨onward, stops⟩ := roomy.drain two here rfl
  refine .of_still onward.toForward ?_
  rintro id _ _ stands ⟨rfl, a, p, rfl⟩
  obtain ⟨-, free, first, head, rfl⟩ := stands.of_queue
  exact stops first head (free_of_wait free)

/-- Both ports. -/
theorem Roomy.lands (two : 2 ≤ n) (here : k < n) (roomy : Roomy n F T σ) :
    Onward n F T σ ((σ.land k .left).land k .right) 0 ∧
      Takes n F T (fun pl w => w = 1 ∧ ∃ j q, target n j q = k ∧ ((∃ a, pl = .queue j a q) ∨ pl = .link j q)) σ
        ((σ.land k .left).land k .right) := by
  obtain ⟨left, tof, clear, -⟩ := roomy.land two here .left
  obtain ⟨right, tof', clear', kept⟩ := left.roomy.land two here .right
  have onward := left.trans right
  have late (q : Port) (x : MsgId) (held : (((σ.land k .left).land k .right).nodes k).incoming q = some x) :
      0 < ((σ.land k .left).land k .right).tof x := by
    rw [tof']
    cases q with
    | left =>
        rw [kept .left (by decide)] at held
        rw [tof]
        exact clear x held
    | right => exact clear' x held
  have gone (j : Nat) (q : Port) (to_k : target n j q = k) :
      wait n ((σ.land k .left).land k .right) j q ≠ 1 := by
    intro due
    obtain ⟨x, slot, zero⟩ := held_of_wait due
    rw [link, to_k] at slot
    have := late _ x slot
    omega
  refine ⟨onward, .of_still onward.toForward ?_⟩
  rintro id _ _ stands ⟨rfl, j, q, to_k, ⟨a, rfl⟩ | rfl⟩
  · exact gone j q to_k stands.of_queue.2.1
  · exact gone j q to_k stands.of_link.2.1

/-- The engine takes the first message. -/
theorem handOver_takes (here : k < n) (roomy : Roomy n F T σ) :
    Takes n F T (fun pl w => w = 0 ∧ ∃ a, pl = .inbox k a) σ (σ.handOver n k) := by
  rintro id - _ _ stands ⟨rfl, a, rfl⟩
  obtain ⟨-, free, pre, post, queue, rfl⟩ := stands.of_inbox
  obtain ⟨first, rest, inbox⟩ : ∃ first rest, (σ.nodes k).inQueue = first :: rest := by
    rw [queue]
    cases pre with
    | nil => exact ⟨id, post, rfl⟩
    | cons y pre => exact ⟨y, _, rfl⟩
  have near := (handOver_first inbox free).moves_up (F := F) (T := T) roomy.sound here queue
  rwa [free] at near

/-- `Node::tick` takes those on that wait for it. -/
theorem Roomy.tickNode (two : 2 ≤ n) (here : k < n) {out : List Message}
    (valid : ∀ m ∈ out, m.src = k ∧ m.dst < n ∧ 1 ≤ m.flits) (few : ∀ m ∈ out, m.flits ≤ F)
    (roomy : Roomy n F T σ) (room : underway n σ + out.length ≤ T) :
    Onward n F T σ (σ.tickNode n k out) out.length ∧
      Takes n F T (fun pl w => pl.turn n w = .tick k) σ (σ.tickNode n k out) := by
  have first := roomy.inject two here valid few room
  obtain ⟨second, -⟩ := first.roomy.drain two here rfl
  have out := drain_takes two here first.roomy
  obtain ⟨third, lands⟩ := second.roomy.lands two here
  have hands := handOver_takes here third.roomy
  have fourth := third.roomy.handOver here
  have fifth := fourth.roomy.handOver here
  have last := fourth.trans fifth
  refine ⟨first.trans (second.trans (third.trans last)), fun id old pl w stands turn => ?_⟩
  have out := (out.before second.fresh (third.trans last).toForward).after first.toForward
    (second.trans (third.trans last)).toForward
  have lands := (lands.before third.fresh last.toForward).after (first.trans second).toForward
    (third.trans last).toForward
  have hands := (hands.before fourth.fresh fifth.toForward).after (first.trans (second.trans third)).toForward
    last.toForward
  cases pl with
  | next j => cases turn
  | queue j a p =>
      rcases w with _ | _ | w
      · cases turn
        exact out id old _ _ stands ⟨rfl, a, p, rfl⟩
      · cases turn
        exact lands id old _ _ stands ⟨rfl, j, p, rfl, .inl ⟨a, rfl⟩⟩
      · cases turn
  | link j p =>
      rcases w with _ | _ | w
      · obtain ⟨-, free, slot⟩ := stands.of_link
        cases slot.symm.trans (free_of_wait free)
      · cases turn
        exact lands id old _ _ stands ⟨rfl, j, p, rfl, .inr rfl⟩
      · cases turn
  | inbox j a =>
      rcases w with _ | w
      · cases turn
        exact hands id old _ _ stands ⟨rfl, a, rfl⟩
      · cases turn

/-- A sender counts its message down. -/
theorem Roomy.age (here : k < n) (p : Port) (roomy : Roomy n F T σ) :
    Onward n F T σ (σ.age k p) 0 ∧
      Takes n F T (fun pl w => 2 ≤ w ∧ ((∃ a, pl = .queue k a p) ∨ pl = .link k p)) σ (σ.age k p) := by
  have sound := roomy.sound.age here p
  cases full : (σ.nodes k).outgoing p with
  | none =>
      have idle : ¬2 ≤ wait n σ k p := by
        intro held
        obtain ⟨x, slot, late⟩ := held_of_wait (show wait n σ k p = (wait n σ k p - 1) + 1 by omega)
        cases full.symm.trans (roomy.known k here p x slot (by omega))
      have eq := age_idle full
      rw [eq]
      refine ⟨.refl roomy, .of_still (.refl σ) ?_⟩
      rintro id _ _ stands ⟨long, ⟨a, rfl⟩ | rfl⟩
      · exact idle (stands.of_queue.2.1 ▸ long)
      · exact idle (stands.of_link.2.1 ▸ long)
  | some x =>
      have same := (aged σ k p).toSame
      have step := countedDown full
      have forward := step.forward same here full roomy
      have less := step.waits same here full roomy here (q := p)
      rw [if_pos ⟨rfl, rfl⟩] at less
      refine ⟨⟨forward, step.roomy same here full sound roomy, ?_⟩, fun id old pl w stands waits => ?_⟩
      · exact (underway_congr same.fresh same.handed).le
      · refine (forward.moved id old pl w stands).resolve_right fun still => ?_
        obtain ⟨-, ⟨a, rfl⟩ | rfl⟩ := waits
        · have := stands.of_queue.2.1
          have := still.of_queue.2.1
          omega
        · have := stands.of_link.2.1
          have := still.of_link.2.1
          omega

/-- `Node::tock` takes those on that wait for it. -/
theorem Roomy.tockNode (two : 2 ≤ n) (here : k < n) (roomy : Roomy n F T σ) :
    Onward n F T σ (σ.tockNode k) 0 ∧ Takes n F T (fun pl w => pl.turn n w = .tock k) σ (σ.tockNode k) := by
  have step := spliced σ k
  have idle (j : Nat) : ((σ.update k fun x =>
      { x with cacheIn := none, outQueue := x.outQueue ++ x.outNext, outNext := [] }).nodes j).cacheIn =
        if j = k then none else (σ.nodes j).cacheIn := by
    rw [update_nodes]
    split <;> rfl
  have roomy₁ := step.roomy two here roomy
  have first : Onward n F T σ _ 0 :=
    ⟨step.forward here roomy₁ idle, roomy₁, (underway_congr step.fresh step.handed).le⟩
  obtain ⟨left, counts⟩ := roomy₁.age here .left
  obtain ⟨right, counts'⟩ := left.roomy.age here .right
  rw [Ring.tockNode, right.roomy.sound.inNext_unused here]
  refine ⟨first.trans (left.trans right), fun id old pl w stands turn => ?_⟩
  have counts := (counts.before left.fresh right.toForward).after first.toForward (left.trans right).toForward
  have counts' := counts'.after (first.trans left).toForward right.toForward
  cases pl with
  | next j =>
      cases turn
      cases stands with
      | next _ mem =>
          exact (left.trans right).toForward.nearer (old.trans_le first.fresh) (step.joins roomy₁ here mem old)
  | queue j a p =>
      rcases w with _ | _ | w
      · cases turn
      · cases turn
      · cases turn
        cases p with
        | left => exact counts id old _ _ stands ⟨by omega, .inl ⟨a, rfl⟩⟩
        | right => exact counts' id old _ _ stands ⟨by omega, .inl ⟨a, rfl⟩⟩
  | link j p =>
      rcases w with _ | _ | w
      · cases turn
      · cases turn
      · cases turn
        cases p with
        | left => exact counts id old _ _ stands ⟨by omega, .inr rfl⟩
        | right => exact counts' id old _ _ stands ⟨by omega, .inr rfl⟩
  | inbox j a =>
      rcases w with _ | w
      · cases turn
      · cases turn
        rcases first.moved id old _ _ stands with near | still
        · exact (left.trans right).toForward.nearer (old.trans_le first.fresh) near
        · have free := still.of_inbox.2.1
          rw [busy, idle, if_pos rfl, if_neg fun no => no.2 rfl] at free
          cases free

/-! ## Cycles -/

/-- What one turn after the other does. -/
theorem Onward.fold (f : Ring → Nat → Ring) (more : Nat → Nat) (turn : Nat → Turn) (ks : List Nat)
    (step : ∀ k ∈ ks, ∀ σ, Roomy n F T σ → underway n σ + more k ≤ T →
      Onward n F T σ (f σ k) (more k) ∧ Takes n F T (fun pl w => pl.turn n w = turn k) σ (f σ k))
    (roomy : Roomy n F T σ) (room : underway n σ + (ks.map more).sum ≤ T) :
    Onward n F T σ (ks.foldl f σ) (ks.map more).sum ∧
      ∀ k ∈ ks, Takes n F T (fun pl w => pl.turn n w = turn k) σ (ks.foldl f σ) := by
  induction ks generalizing σ with
  | nil => exact ⟨.refl roomy, fun k no => by cases no⟩
  | cons k rest ih =>
      rw [List.map_cons, List.sum_cons] at room ⊢
      obtain ⟨first, takes⟩ := step k List.mem_cons_self σ roomy (by omega)
      have load := first.load
      obtain ⟨later, takes'⟩ := ih (fun j mem => step j (List.mem_cons_of_mem _ mem)) first.roomy (by omega)
      refine ⟨first.trans later, fun j mem => ?_⟩
      rcases List.mem_cons.mp mem with rfl | mem
      · exact takes.before first.fresh later.toForward
      · exact (takes' j mem).after first.toForward later.toForward

/-- The engines send to nodes of the ring, and not more than there is room for. -/
structure Load (n F T : Nat) (σ : Ring) (out : NodeId → List Message) : Prop where
  sends : Sends n out
  flits : ∀ k < n, ∀ m ∈ out k, m.flits ≤ F
  room : underway n σ + ∑ k ∈ Finset.range n, (out k).length ≤ T

/-- A message waits for one of the nodes. -/
theorem At.turn (here : At n σ id pl w) : ∃ k < n, pl.turn n w = .tick k ∨ pl.turn n w = .tock k := by
  cases pl with
  | next j =>
      cases here with
      | next bound => exact ⟨j, bound, .inr rfl⟩
  | queue j a p =>
      have bound := here.of_queue.1
      rcases w with _ | _ | w
      · exact ⟨j, bound, .inl rfl⟩
      · exact ⟨_, target_lt bound p, .inl rfl⟩
      · exact ⟨j, bound, .inr rfl⟩
  | link j p =>
      have bound := here.of_link.1
      rcases w with _ | _ | w
      · exact ⟨j, bound, .inl rfl⟩
      · exact ⟨_, target_lt bound p, .inl rfl⟩
      · exact ⟨j, bound, .inr rfl⟩
  | inbox j a =>
      have bound := here.of_inbox.1
      rcases w with _ | w
      · exact ⟨j, bound, .inl rfl⟩
      · exact ⟨j, bound, .inr rfl⟩

/-- Once every node has ticked and tocked, every message has had its turn. -/
theorem takes_all {τ : Ring} (ticked : Forward n F T σ τ) (tocked : Forward n F T τ σ')
    (ticks : ∀ k < n, Takes n F T (fun pl w => pl.turn n w = .tick k) σ τ)
    (tocks : ∀ k < n, Takes n F T (fun pl w => pl.turn n w = .tock k) τ σ') :
    Takes n F T (fun _ _ => True) σ σ' := by
  intro id old pl w stands _
  obtain ⟨k, bound, turn | turn⟩ := stands.turn
  · exact (ticks k bound).before ticked.fresh tocked id old pl w stands turn
  · exact (tocks k bound).after ticked tocked id old pl w stands turn

/-- In a cycle every message comes nearer its end. -/
theorem Roomy.cycle (two : 2 ≤ n) {out : NodeId → List Message} (load : Load n F T σ out) (roomy : Roomy n F T σ) :
    Onward n F T σ ((σ.tick n out).tock n) (∑ k ∈ Finset.range n, (out k).length) ∧
      Takes n F T (fun _ _ => True) σ ((σ.tick n out).tock n) := by
  obtain ⟨ticked, takes⟩ := Onward.fold (fun σ k => σ.tickNode n k (out k)) (fun k => (out k).length) .tick (List.range n)
    (fun k mem τ roomy room => roomy.tickNode two (List.mem_range.mp mem)
      (load.sends k (List.mem_range.mp mem)) (load.flits k (List.mem_range.mp mem)) room) roomy load.room
  have few := ticked.roomy.room
  obtain ⟨tocked, takes'⟩ := Onward.fold (fun σ k => σ.tockNode k) (fun _ => 0) .tock (List.range n)
    (fun k mem τ roomy _ => roomy.tockNode two (List.mem_range.mp mem)) ticked.roomy (by simpa using few)
  have none : ((List.range n).map fun _ => 0).sum = 0 := by simp
  rw [none] at tocked
  exact ⟨ticked.trans tocked, takes_all ticked.toForward tocked.toForward
    (fun k bound => takes k (List.mem_range.mpr bound)) fun k bound => takes' k (List.mem_range.mpr bound)⟩

/-- The cycles that a message may take from one node to another. -/
def latency (n F T : Nat) : Nat := n * perHop F T + 2 * T + 1

theorem togo_le (two : 2 ≤ n) (here : k < n) {d : Nat} (there : d < n) : togo n k d ≤ n := by
  have eq := distance_eq here there
  unfold togo
  split at eq <;> split <;> first | omega | (split <;> omega)

theorem At.rank_le (two : 2 ≤ n) (roomy : Roomy n F T σ) (old : id < σ.fresh) (here : At n σ id pl w) :
    pl.rank n F T (σ.heap id).dst w ≤ latency n F T := by
  have there := (roomy.sound.routed.addressed id old).2
  have most {j : Nat} (bound : j < n) : togo n j (σ.heap id).dst * perHop F T ≤ n * perHop F T :=
    Nat.mul_le_mul_right _ (togo_le two bound there)
  unfold latency
  cases here with
  | @next j bound =>
      have := most bound
      rw [Place.rank]
      omega
  | @queue j pre post first bound queue =>
      have few := roomy.waiting_le bound
      rw [queue, List.length_append, List.length_cons] at few
      have le := rank_queue_le (p := port n j (σ.heap first).dst) (roomy.togo_pos bound old)
        (show pre.length < T by omega) (roomy.wait_le j (port n j (σ.heap first).dst))
      have := most bound
      omega
  | @link j p bound slot =>
      have hops : (togo n j (σ.heap id).dst - 1) * perHop F T + perHop F T ≤ n * perHop F T := by
        have pos := roomy.togo_pos bound old
        rw [← Nat.succ_mul, Nat.succ_eq_add_one, Nat.sub_add_cancel pos]
        exact most bound
      have soon := roomy.wait_le j p
      have long : F + 2 ≤ perHop F T := Nat.le_mul_of_pos_left _ (Nat.succ_pos T)
      rw [Place.rank]
      omega
  | @inbox j pre post bound queue =>
      have few := roomy.waiting_le bound
      rw [queue, List.length_append, List.length_cons] at few
      have soon := busy_le (n := n) σ j
      rw [Place.rank]
      omega

theorem At.rank_pos (here : At n σ id pl w) (d : Nat) : 0 < pl.rank n F T d w := by
  cases here with
  | next | queue | inbox => exact Nat.succ_pos _
  | link bound slot =>
      rw [wait_of_link slot, Place.rank]
      exact Nat.succ_pos _

/-- A message that has a name stands somewhere, until it has come to its end. -/
theorem Roomy.stands (roomy : Roomy n F T σ) (old : id < σ.fresh) : Ended σ id ∨ ∃ pl w, At n σ id pl w := by
  have once := roomy.sound.counted id
  rw [if_pos old] at once
  obtain ⟨k, mem, counts⟩ := Finset.exists_ne_zero_of_sum_ne_zero (once.symm ▸ Nat.one_ne_zero)
  have here := mem_range.mp mem
  have stood : id ∈ (σ.nodes k).messages := List.count_pos_iff.mp (Nat.pos_of_ne_zero counts)
  have slot (p : Port) (held : (σ.nodes k).incoming p = some id) : ∃ pl w, At n σ id pl w := by
    refine ⟨_, _, .link (target_lt here p) (p := p.other) ?_⟩
    rw [link, target_other here, Port.other_other]
    exact held
  simp only [RingNode.messages, List.mem_append, Option.mem_toList] at stood
  rcases stood with (((((ended | inbox) | unused) | left) | right) | queue) | next
  · refine .inl ?_
    rwa [Ended, roomy.sound.routed.inbox k here id (.inr ended)]
  · obtain ⟨pre, post, eq⟩ := List.append_of_mem inbox
    exact .inr ⟨_, _, .inbox here eq⟩
  · rw [roomy.sound.routed.inNext k here] at unused
    cases unused
  · exact .inr (slot .left left)
  · exact .inr (slot .right right)
  · obtain ⟨pre, post, eq⟩ := List.append_of_mem queue
    obtain ⟨first, head⟩ : ∃ first, (σ.nodes k).outQueue.head? = some first := by
      rw [eq]
      cases pre with
      | nil => exact ⟨id, rfl⟩
      | cons y pre => exact ⟨y, rfl⟩
    exact .inr ⟨_, _, .queue here eq head⟩
  · exact .inr ⟨_, _, .next here next⟩

/-- `j` cycles of a ring that at most `T` messages of at most `F` flits share. -/
inductive Cycles (n F T : Nat) (σ : Ring) : Nat → Ring → Prop where
  | none : Cycles n F T σ 0 σ
  | more {j : Nat} {τ : Ring} {out : NodeId → List Message} :
      Cycles n F T σ j τ → Load n F T τ out → Cycles n F T σ (j + 1) ((τ.tick n out).tock n)

theorem Roomy.empty (n F T : Nat) : Roomy n F T {} where
  sound := .empty n
  known := by simp [link]
  flits id old := absurd old (Nat.not_lt_zero id)
  tof _ := Int.natCast_nonneg F
  room := by simp [underway, named]

theorem Cycles.onward (two : 2 ≤ n) {j : Nat} (cycles : Cycles n F T σ j σ') (roomy : Roomy n F T σ) :
    Forward n F T σ σ' ∧ Roomy n F T σ' := by
  induction cycles with
  | none => exact ⟨.refl σ, roomy⟩
  | more cycles load ih =>
      obtain ⟨forward, roomy⟩ := ih
      obtain ⟨onward, -⟩ := roomy.cycle two load
      exact ⟨forward.trans onward.toForward, onward.roomy⟩

/-- After `j` cycles the message has come to its end, or is as near it as it should be. -/
def InTime (n F T : Nat) (σ : Ring) (id : MsgId) (j : Nat) : Prop :=
  Ended σ id ∨ ∃ pl w, At n σ id pl w ∧ pl.rank n F T (σ.heap id).dst w + j ≤ latency n F T

theorem Roomy.inTime (two : 2 ≤ n) (roomy : Roomy n F T σ) (old : id < σ.fresh) : InTime n F T σ id 0 := by
  refine (roomy.stands old).imp_right ?_
  rintro ⟨pl, w, here⟩
  exact ⟨pl, w, here, here.rank_le two roomy old⟩

/-- With each cycle there is one less to go. -/
theorem InTime.cycle {j : Nat} (inTime : InTime n F T σ id j) (forward : Forward n F T σ σ')
    (takes : Takes n F T (fun _ _ => True) σ σ') (old : id < σ.fresh) : InTime n F T σ' id (j + 1) := by
  rcases inTime with ended | ⟨pl, w, here, le⟩
  · exact .inl (forward.ended id old ended)
  · refine (takes id old pl w here trivial).imp_right ?_
    rintro ⟨pl', w', here', less⟩
    exact ⟨pl', w', here', by omega⟩

theorem InTime.ended {j : Nat} (inTime : InTime n F T σ id j) (enough : latency n F T ≤ j) : Ended σ id := by
  rcases inTime with ended | ⟨pl, w, here, le⟩
  · exact ended
  · have pos := here.rank_pos (F := F) (T := T) (σ.heap id).dst
    omega

theorem Cycles.inTime (two : 2 ≤ n) {j : Nat} (cycles : Cycles n F T σ j σ') (roomy : Roomy n F T σ)
    (old : id < σ.fresh) : InTime n F T σ' id j := by
  induction cycles with
  | none => exact roomy.inTime two old
  | more cycles load ih =>
      obtain ⟨forward, roomy'⟩ := cycles.onward two roomy
      obtain ⟨onward, takes⟩ := roomy'.cycle two load
      exact ih.cycle onward.toForward takes (old.trans_le forward.fresh)

/-- A ring that at most `T` messages of at most `F` flits share hands each of them over within a
    fixed number of cycles, whoever sends what meanwhile. -/
theorem ring_delivers_in_time (two : 2 ≤ n) {j : Nat} (before : Cycles n F T {} j σ) (after : Cycles n F T σ k σ')
    (enough : latency n F T ≤ k) (id : MsgId) (sent : id < σ.fresh) :
    id ∈ (σ'.nodes (σ.heap id).dst).handed := by
  obtain ⟨-, roomy⟩ := before.onward two (.empty n F T)
  obtain ⟨forward, -⟩ := after.onward two roomy
  rw [← forward.heap id sent]
  exact (after.inTime two roomy sent).ended enough

/-- `j` cycles in which nobody sends. -/
def quiet (n : Nat) (σ : Ring) : Nat → Ring
  | 0 => σ
  | j + 1 => ((quiet n σ j).tick n fun _ => []).tock n

theorem Cycles.quiet (two : 2 ≤ n) (roomy : Roomy n F T σ) (j : Nat) : Cycles n F T σ j (quiet n σ j) := by
  induction j with
  | zero => exact .none
  | succ j ih =>
      refine ih.more ⟨fun k _ m mem => ?_, fun k _ m mem => ?_, ?_⟩
      · cases mem
      · cases mem
      · simpa using (ih.onward two roomy).2.room

/-- What `crossing` sends. -/
def burst : Ring := (({} : Ring).tick 4 (crossing.getD 0 fun _ => [])).tock 4

private theorem burst_cycle : Cycles 4 2 3 {} 1 burst :=
  .more .none ⟨by decide, by decide, by decide⟩

/-- All three reach node 2. -/
theorem ring_delivers_in_time_crossing :
    0 ∈ ((quiet 4 burst 71).nodes (burst.heap 0).dst).handed ∧
      1 ∈ ((quiet 4 burst 71).nodes (burst.heap 1).dst).handed ∧
      2 ∈ ((quiet 4 burst 71).nodes (burst.heap 2).dst).handed := by
  have roomy := (burst_cycle.onward (by decide) (.empty 4 2 3)).2
  have after : Cycles 4 2 3 burst 71 (quiet 4 burst 71) := .quiet (by decide) roomy 71
  refine ⟨?_, ?_, ?_⟩
  · exact ring_delivers_in_time (by decide) burst_cycle after (by decide) 0 (by decide)
  · exact ring_delivers_in_time (by decide) burst_cycle after (by decide) 1 (by decide)
  · exact ring_delivers_in_time (by decide) burst_cycle after (by decide) 2 (by decide)

end Coherence.Ring
