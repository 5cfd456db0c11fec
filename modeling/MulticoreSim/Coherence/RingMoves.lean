import MulticoreSim.Coherence.RingPlaces

/-! # Every move takes somebody on

No move of the ring takes a message back. Where one leaves its place, those behind
it move up.
-/

open Finset (mem_range)

namespace Coherence.Ring

variable {n k F T r : Nat} {σ σ' : Ring} {id x : MsgId} {p : Port} {pl : Place} {w : Nat}

theorem underway_congr (fresh : σ'.fresh = σ.fresh) (handed : ∀ j, (σ'.nodes j).handed = (σ.nodes j).handed) :
    underway n σ' = underway n σ := by
  simp only [underway, named, fresh, handed]

theorem wait_congr (slot : link n σ' k p = link n σ k p)
    (tof : ∀ x, link n σ k p = some x → σ'.tof x = σ.tof x) : wait n σ' k p = wait n σ k p := by
  unfold wait
  rw [slot]
  cases held : link n σ k p with
  | none => rfl
  | some x => simp only [tof x held]

theorem wait_of_link (slot : link n σ k p = some x) : wait n σ k p = (σ.tof x).toNat + 1 := by
  unfold wait
  rw [slot]

theorem wait_of_free (slot : link n σ k p = none) : wait n σ k p = 0 := by
  unfold wait
  rw [slot]

theorem busy_congr (same : (σ'.nodes k).cacheIn = (σ.nodes k).cacheIn) : busy n σ' k = busy n σ k := by
  unfold busy
  rw [same]

theorem busy_le (σ : Ring) (k : NodeId) : busy n σ k ≤ 1 := by
  unfold busy
  split <;> omega

/-- What is in a queue is nearer its end than what has a whole hop before it. -/
theorem rank_queue_le {d ahead : Nat} (far : 0 < togo n k d) (few : ahead < T) (soon : w ≤ F + 1) :
    (Place.queue k ahead p).rank n F T d w ≤ togo n k d * perHop F T + 2 * T := by
  obtain ⟨hops, eq⟩ : ∃ hops, togo n k d = hops + 1 := ⟨togo n k d - 1, by omega⟩
  have behind : (ahead + 2) * (F + 2) ≤ perHop F T := Nat.mul_le_mul_right _ (by omega)
  rw [Nat.add_mul] at behind
  rw [Place.rank, eq, Nat.succ_mul hops, Nat.add_sub_cancel]
  omega

theorem Roomy.togo_pos (roomy : Roomy n F T σ) (here : k < n) (old : id < σ.fresh) :
    0 < togo n k (σ.heap id).dst :=
  Ring.togo_pos here (roomy.sound.routed.addressed id old).2

/-- What stands somewhere has a name. -/
theorem At.old (here : At n σ id pl w) (sound : Sound n σ) : id < σ.fresh := by
  cases here with
  | @next k bound mem => exact sound.routed.named k bound id (.inl mem)
  | @queue k pre post first bound queue =>
      exact sound.routed.named k bound id (.inr (.inl (by rw [queue]; simp)))
  | @link k p bound slot =>
      exact sound.routed.named _ (target_lt bound p) id (.inr (.inr (.inl ⟨_, slot⟩)))
  | @inbox k pre post bound queue =>
      exact sound.routed.named k bound id (.inr (.inr (.inr (.inl (by rw [queue]; simp)))))

/-! ## Leaving a queue -/

namespace Launched

variable (step : Launched n k x σ σ')
include step

theorem roomy (two : 2 ≤ n) (here : k < n) (before : Roomy n F T σ) : Roomy n F T σ' := by
  have old : x < σ.fresh := before.sound.routed.named k here x (.inr (.inl (by rw [step.queue]; simp)))
  constructor
  case sound =>
    exact ⟨step.routed here before.sound.routed, step.ordered two here before.sound.ordered,
      step.counted here before.sound.counted, step.aliased here old before.sound.aliased⟩
  case known =>
    intro j bound q y slot late
    by_cases mine : j = k ∧ q = port n k (σ.heap x).dst
    · obtain ⟨rfl, rfl⟩ := mine
      rw [step.outgoing, if_pos ⟨rfl, rfl⟩, ← slot, step.taken]
    · rw [step.link_other here bound fun at_k same => mine ⟨at_k, same⟩] at slot
      rw [step.outgoing, if_neg mine]
      refine before.known j bound q y slot ?_
      rw [step.tof] at late
      by_cases eq : y = x
      · -- A message in a queue is in no link.
        subst eq
        have aliased := step.aliased here old before.sound.aliased
        have counted := step.counted here before.sound.counted
        have slot' : link n σ' j q = some y := by
          rwa [step.link_other here bound fun at_k same => mine ⟨at_k, same⟩]
        exact absurd (counted.link_unique bound here slot' step.taken) mine
      · rwa [Function.update_of_ne eq] at late
  case flits =>
    rw [step.fresh, step.heap]
    exact before.flits
  case tof =>
    intro y
    rw [step.tof]
    by_cases eq : y = x
    · rw [eq, Function.update_self]
      exact_mod_cast before.flits x old
    · rw [Function.update_of_ne eq]
      exact before.tof y
  case room =>
    rw [underway_congr step.fresh step.handed]
    exact before.room

/-- The wait for the other links is as before. -/
theorem wait_other (here : k < n) (after : Roomy n F T σ') {j : NodeId} {q : Port} (bound : j < n)
    (other : j = k → q ≠ port n k (σ.heap x).dst) : wait n σ' j q = wait n σ j q := by
  have slot := step.link_other here bound other
  refine wait_congr slot fun y held => ?_
  rw [step.tof, Function.update_of_ne]
  rintro rfl
  obtain ⟨at_k, same⟩ := after.sound.counted.link_unique bound here (slot.trans held) step.taken
  exact other at_k same

theorem forward (here : k < n) (after : Roomy n F T σ')
    (idle : ∀ j, (σ'.nodes j).cacheIn = (σ.nodes j).cacheIn) : Forward n F T σ σ' where
  fresh := step.fresh.ge
  heap _ _ := by rw [step.heap]
  ended _ _ ended := by
    unfold Ended at ended ⊢
    rwa [step.heap, step.handed]
  moved id old pl w stands := by
    cases stands with
    | @next j bound mem => exact .inr (.next bound (by rwa [step.outNext]))
    | @queue j pre post first bound queue head =>
        by_cases at_k : j = k
        · subst at_k
          have front : first = x := by
            rw [step.queue] at head
            exact (Option.some.inj head).symm
          subst front
          rw [step.queue] at queue
          cases pre with
          | nil =>
              -- It sets out.
              obtain ⟨rfl, -⟩ := List.cons.inj queue
              refine .inl (.inr ⟨_, _, .link bound step.taken, ?_⟩)
              have soon := after.wait_le j (port n j (σ.heap first).dst)
              rw [step.heap, Place.rank, Place.rank]
              omega
          | cons y pre =>
              -- Those before it are one fewer.
              obtain ⟨-, queue⟩ := List.cons.inj queue
              obtain ⟨next, head'⟩ : ∃ next, (σ'.nodes j).outQueue.head? = some next := by
                rw [queue]
                cases pre with
                | nil => exact ⟨id, rfl⟩
                | cons z pre => exact ⟨z, rfl⟩
              refine .inl (.inr ⟨_, _, .queue bound queue head', ?_⟩)
              have soon := after.wait_le j (port n j (σ'.heap next).dst)
              rw [step.heap, Place.rank, Place.rank, List.length_cons, Nat.succ_mul pre.length]
              rw [step.heap] at soon
              omega
        · have same := step.outQueue j at_k
          refine .inr ?_
          rw [← step.wait_other here after bound fun eq => absurd eq at_k, ← step.heap]
          exact .queue bound (same.trans queue) (by rw [same]; exact head)
    | @link j q bound slot =>
        have other : j = k → q ≠ port n k (σ.heap x).dst := by
          rintro rfl rfl
          cases slot.symm.trans step.free
        refine .inr ?_
        rw [← step.wait_other here after bound other]
        exact .link bound ((step.link_other here bound other).trans slot)
    | @inbox j pre post bound queue =>
        refine .inr ?_
        rw [← busy_congr (idle j)]
        exact .inbox bound (by rw [step.inQueue]; exact queue)

end Launched

/-! ## Leaving a link -/

namespace Landed

variable (step : Landed k p x σ σ')
include step

theorem roomy (two : 2 ≤ n) (here : k < n) (before : Roomy n F T σ) : Roomy n F T σ' := by
  constructor
  case sound =>
    exact ⟨step.routed two here before.sound.routed,
      step.ordered two here before.sound.routed before.sound.ordered,
      step.counted before.sound.counted, step.aliased here before.sound.aliased⟩
  case known =>
    intro j bound q y slot late
    rw [step.link_eq here bound] at slot
    split at slot
    · cases slot
    · rw [step.tof] at late
      rw [step.outgoing]
      exact before.known j bound q y slot late
  case flits =>
    rw [step.fresh, step.heap]
    exact before.flits
  case tof =>
    rw [step.tof]
    exact before.tof
  case room =>
    rw [underway_congr step.fresh step.handed]
    exact before.room

/-- The wait for the other links is as before. -/
theorem wait_other (here : k < n) {j : NodeId} {q : Port} (bound : j < n)
    (other : ¬(j = target n k p ∧ q = p.other)) : wait n σ' j q = wait n σ j q :=
  wait_congr (by rw [step.link_eq here bound, if_neg other]) fun y _ => by rw [step.tof]

/-- The link is free now. -/
theorem wait_freed (here : k < n) :
    wait n σ (target n k p) p.other = 1 ∧ wait n σ' (target n k p) p.other = 0 := by
  have due := step.due
  refine ⟨?_, wait_of_free (by rw [step.link_eq here (target_lt here p), if_pos ⟨rfl, rfl⟩])⟩
  rw [wait_of_link (step.emptied here)]
  omega

/-- The message is a hop nearer. -/
theorem lands (two : 2 ≤ n) (here : k < n) (before : Roomy n F T σ) (after : Roomy n F T σ') :
    Nearer n F T σ' x ((Place.link (target n k p) p.other).rank n F T (σ.heap x).dst 1) := by
  have there := target_lt here p
  obtain ⟨on, leaves⟩ := before.sound.routed.links _ there _ _ (step.emptied here)
  have old := (At.link there (step.emptied here)).old before.sound
  have bound := (before.sound.routed.addressed x old).2
  have hops : hop n (target n k p) (σ.heap x).dst = k := by
    rw [hop, leaves]
    exact target_other here p
  obtain ⟨last, closer⟩ := hop_togo two there bound
  have few := after.waiting_le here
  by_cases home : (σ.heap x).dst = k
  · -- It has arrived.
    have inbox : (σ'.nodes k).inQueue = (σ.nodes k).inQueue ++ x :: [] := by
      rw [step.inQueue, if_pos ⟨rfl, home⟩]
    refine .inr ⟨_, _, .inbox here inbox, ?_⟩
    have soon := busy_le (n := n) σ' k
    rw [inbox, List.length_append, List.length_singleton] at few
    rw [Place.rank, Place.rank]
    omega
  · -- It goes on from here.
    have queue : (σ'.nodes k).outQueue = (σ.nodes k).outQueue ++ x :: [] := by
      rw [step.outQueue, if_pos ⟨rfl, home⟩]
    obtain ⟨first, head⟩ : ∃ first, (σ'.nodes k).outQueue.head? = some first := by
      rw [queue]
      cases (σ.nodes k).outQueue with
      | nil => exact ⟨x, rfl⟩
      | cons y rest => exact ⟨y, rfl⟩
    refine .inr ⟨_, _, .queue here queue head, ?_⟩
    have further : togo n (target n k p) (σ.heap x).dst ≠ 1 := fun far => home ((last far).symm.trans hops)
    obtain ⟨-, nearer⟩ := closer further
    rw [hops] at nearer
    have far := after.togo_pos here (step.fresh ▸ old : x < σ'.fresh)
    rw [step.heap] at far ⊢
    rw [queue, List.length_append, List.length_singleton] at few
    have le := rank_queue_le (F := F) (T := T) (p := port n k (σ'.heap first).dst) far
      (show (σ.nodes k).outQueue.length < T by omega) (after.wait_le k (port n k (σ'.heap first).dst))
    rw [step.heap] at le
    refine le.trans_lt ?_
    rw [Place.rank, ← nearer, Nat.add_sub_cancel]
    exact Nat.lt_succ_self _

theorem forward (two : 2 ≤ n) (here : k < n) (before : Roomy n F T σ) (after : Roomy n F T σ')
    (idle : ∀ j, (σ'.nodes j).cacheIn = (σ.nodes j).cacheIn) : Forward n F T σ σ' where
  fresh := step.fresh.ge
  heap _ _ := by rw [step.heap]
  ended _ _ ended := by
    unfold Ended at ended ⊢
    rwa [step.heap, step.handed]
  moved id old pl w stands := by
    cases stands with
    | @next j bound mem => exact .inr (.next bound (by rwa [step.outNext]))
    | @queue j pre post first bound queue head =>
        have queue' : (σ'.nodes j).outQueue = pre ++ id ::
            (post ++ if j = k ∧ (σ.heap x).dst ≠ k then [x] else []) := by
          rw [step.outQueue, queue, List.append_assoc, List.cons_append]
        have head' : (σ'.nodes j).outQueue.head? = some first := by
          rw [step.outQueue, List.head?_append, head, Option.some_or]
        have stands' := At.queue (n := n) bound queue' head'
        rw [step.heap] at stands'
        by_cases freed : j = target n k p ∧ port n j (σ.heap first).dst = p.other
        · obtain ⟨rfl, out⟩ := freed
          refine .inl (.inr ⟨_, _, stands', ?_⟩)
          obtain ⟨was, is⟩ := step.wait_freed (n := n) here
          rw [step.heap, out, was, is, Place.rank, Place.rank]
          omega
        · rw [step.wait_other here bound freed] at stands'
          exact .inr stands'
    | @link j q bound slot =>
        by_cases freed : j = target n k p ∧ q = p.other
        · obtain ⟨rfl, rfl⟩ := freed
          cases slot.symm.trans (step.emptied here)
          rw [(step.wait_freed here).1]
          exact .inl (step.lands two here before after)
        · refine .inr ?_
          rw [← step.wait_other here bound freed]
          exact .link bound (by rw [step.link_eq here bound, if_neg freed, slot])
    | @inbox j pre post bound queue =>
        refine .inr ?_
        rw [← busy_congr (idle j)]
        exact .inbox bound (by rw [step.inQueue, queue, List.append_assoc, List.cons_append])

end Landed

/-! ## Leaving an inbox -/

namespace HandedOver

variable (step : HandedOver k x σ σ')
include step

theorem underway_eq (here : k < n) (before : Roomy n F T σ) : underway n σ = underway n σ' + 1 := by
  have more : ∑ j ∈ Finset.range n, (σ'.nodes j).handed.length =
      ∑ j ∈ Finset.range n, (σ.nodes j).handed.length + 1 := by
    rw [← Finset.add_sum_erase _ _ (mem_range.mpr here), step.handed,
      ← Finset.add_sum_erase (Finset.range n) (fun j => (σ.nodes j).handed.length) (mem_range.mpr here),
      Finset.sum_congr rfl fun j mem => by rw [(step.others j (Finset.ne_of_mem_erase mem)).2]]
    simp only [List.length_append, List.length_singleton]
    omega
  have parts : ∑ j ∈ Finset.range n, (σ'.nodes j).handed.length ≤ σ.named := by
    rw [← before.sum_length]
    refine Finset.sum_le_sum fun j _ => ?_
    have ended := congrArg List.length (step.ended j)
    simp only [List.length_append] at ended
    simp only [RingNode.messages, List.length_append]
    omega
  have named : σ'.named = σ.named := step.fresh
  unfold underway
  rw [named]
  omega

theorem roomy (here : k < n) (before : Roomy n F T σ) : Roomy n F T σ' where
  sound := ⟨step.routed before.sound.routed, step.ordered before.sound.ordered,
    step.counted before.sound.counted, step.aliased before.sound.aliased⟩
  known := by simpa only [link, step.outgoing, step.incoming, step.tof] using before.known
  flits := by simpa only [step.heap, step.fresh] using before.flits
  tof := by simpa only [step.tof] using before.tof
  room := by
    have := step.underway_eq here before
    have := before.room
    omega

/-- The first is handed over, and those behind it move up. -/
theorem moves_up (before : Sound n σ) (bound : k < n) {pre post : List MsgId}
    (queue : (σ.nodes k).inQueue = pre ++ id :: post) :
    Nearer n F T σ' id ((Place.inbox k pre.length).rank n F T (σ.heap id).dst (busy n σ k)) := by
  have inbox := step.inbox
  rw [queue] at inbox
  cases pre with
  | nil =>
      obtain ⟨rfl, -⟩ := List.cons.inj inbox
      have home := before.routed.inbox k bound id (.inl (by rw [queue]; simp))
      refine .inl ?_
      rw [Ended, step.heap, home, step.handed]
      simp
  | cons y pre =>
      obtain ⟨-, rest⟩ := List.cons.inj inbox
      refine .inr ⟨_, _, .inbox bound rest.symm, ?_⟩
      have soon := busy_le (n := n) σ' k
      rw [Place.rank, Place.rank, List.length_cons]
      omega

theorem forward (before : Sound n σ)
    (idle : ∀ j, j ≠ k → (σ'.nodes j).cacheIn = (σ.nodes j).cacheIn) : Forward n F T σ σ' where
  fresh := step.fresh.ge
  heap _ _ := by rw [step.heap]
  ended id _ ended := by
    unfold Ended at ended ⊢
    rw [step.heap]
    by_cases at_k : (σ.heap id).dst = k
    · rw [at_k] at ended ⊢
      rw [step.handed]
      exact List.mem_append_left _ ended
    · rwa [(step.others _ at_k).2]
  moved id _ pl w stands := by
    have waits (j : NodeId) (q : Port) : wait n σ' j q = wait n σ j q :=
      wait_congr (by rw [link, link, step.incoming]) fun _ _ => by rw [step.tof]
    cases stands with
    | @next j bound mem => exact .inr (.next bound (by rwa [step.outNext]))
    | @queue j pre post first bound queue head =>
        refine .inr ?_
        rw [← waits, ← step.heap]
        exact .queue bound (by rw [step.outQueue, queue]) (by rw [step.outQueue, head])
    | @link j q bound slot =>
        refine .inr ?_
        rw [← waits]
        exact .link bound (by rw [Ring.link, step.incoming]; exact slot)
    | @inbox j pre post bound queue =>
        by_cases at_k : j = k
        · subst at_k
          exact .inl (step.moves_up before bound queue)
        · refine .inr ?_
          rw [← busy_congr (idle j at_k)]
          exact .inbox bound (by rw [(step.others j at_k).1, queue])

end HandedOver

/-! ## Setting out -/

namespace Injected

variable {m : Message} (step : Injected k m σ σ')
include step

theorem roomy (two : 2 ≤ n) (here : k < n) (from_k : m.src = k) (valid : m.dst < n) (flits : 1 ≤ m.flits)
    (few : m.flits ≤ F) (room : underway n σ' ≤ T) (before : Roomy n F T σ) : Roomy n F T σ' where
  sound := ⟨step.routed here from_k valid before.sound.routed,
    step.ordered two from_k before.sound.routed before.sound.ordered,
    step.counted here before.sound.counted, step.aliased flits before.sound.aliased⟩
  known := by simpa only [link, step.outgoing, step.incoming, step.tof] using before.known
  flits := by
    intro y old
    rw [step.fresh] at old
    rw [step.heap]
    rcases Nat.lt_succ_iff_lt_or_eq.mp old with old | rfl
    · rw [Function.update_of_ne (Nat.ne_of_lt old)]
      exact before.flits y old
    · rwa [Function.update_self]
  tof := by simpa only [step.tof] using before.tof
  room := room

theorem forward (sound : Sound n σ) (idle : ∀ j, (σ'.nodes j).cacheIn = (σ.nodes j).cacheIn) :
    Forward n F T σ σ' := by
  have heap (y : MsgId) (old : y < σ.fresh) : σ'.heap y = σ.heap y := by
    rw [step.heap, Function.update_of_ne (Nat.ne_of_lt old)]
  have waits (j : NodeId) (q : Port) : wait n σ' j q = wait n σ j q :=
    wait_congr (by rw [link, link, step.incoming]) fun _ _ => by rw [step.tof]
  refine ⟨by rw [step.fresh]; exact Nat.le_succ _, heap, ?_, ?_⟩
  · intro id old ended
    unfold Ended at ended ⊢
    rwa [heap id old, step.handed]
  · intro id _ pl w stands
    refine .inr ?_
    cases stands with
    | @next j bound mem => exact .next bound (by rw [step.outNext]; exact List.mem_append_left _ mem)
    | @queue j pre post first bound queue head =>
        have known := sound.routed.named j bound first (.inr (.inl (List.mem_of_mem_head? head)))
        rw [← waits, ← heap first known]
        exact .queue bound (by rw [step.outQueue, queue]) (by rw [step.outQueue, head])
    | @link j q bound slot =>
        rw [← waits]
        exact .link bound (by rw [Ring.link, step.incoming]; exact slot)
    | @inbox j pre post bound queue =>
        rw [← busy_congr (idle j)]
        exact .inbox bound (by rw [step.inQueue, queue])

end Injected

/-! ## Joining a queue -/

namespace Spliced

variable (step : Spliced k σ σ')
include step

theorem roomy (two : 2 ≤ n) (here : k < n) (before : Roomy n F T σ) : Roomy n F T σ' where
  sound := before.sound.splice two here step
  known := by simpa only [link, step.outgoing, step.incoming, step.tof] using before.known
  flits := by simpa only [step.heap, step.fresh] using before.flits
  tof := by simpa only [step.tof] using before.tof
  room := by
    rw [underway_congr step.fresh step.handed]
    exact before.room

/-- What its engine has sent stands in the queue now. -/
theorem joins (after : Roomy n F T σ') (here : k < n) (mem : id ∈ (σ.nodes k).outNext) (old : id < σ.fresh) :
    Nearer n F T σ' id ((Place.next k).rank n F T (σ.heap id).dst 0) := by
  obtain ⟨pre, post, next⟩ := List.append_of_mem mem
  have queue : (σ'.nodes k).outQueue = ((σ.nodes k).outQueue ++ pre) ++ id :: post := by
    rw [step.outQueue, if_pos rfl, next, List.append_assoc]
  obtain ⟨first, head⟩ : ∃ first, (σ'.nodes k).outQueue.head? = some first := by
    rw [queue]
    cases (σ.nodes k).outQueue ++ pre with
    | nil => exact ⟨id, rfl⟩
    | cons y rest => exact ⟨y, rfl⟩
  refine .inr ⟨_, _, .queue here queue head, ?_⟩
  have far := after.togo_pos here (step.fresh ▸ old : id < σ'.fresh)
  have few := after.waiting_le here
  rw [queue, List.length_append, List.length_cons] at few
  have le := rank_queue_le (p := port n k (σ'.heap first).dst) far
    (show ((σ.nodes k).outQueue ++ pre).length < T by omega) (after.wait_le k (port n k (σ'.heap first).dst))
  rw [step.heap] at le ⊢
  refine le.trans_lt ?_
  rw [Place.rank]
  exact Nat.lt_succ_self _

theorem forward (here : k < n) (after : Roomy n F T σ')
    (idle : ∀ j, (σ'.nodes j).cacheIn = if j = k then none else (σ.nodes j).cacheIn) : Forward n F T σ σ' where
  fresh := step.fresh.ge
  heap _ _ := by rw [step.heap]
  ended _ _ ended := by
    unfold Ended at ended ⊢
    rwa [step.heap, step.handed]
  moved id old pl w stands := by
    have waits (j : NodeId) (q : Port) : wait n σ' j q = wait n σ j q :=
      wait_congr (by rw [link, link, step.incoming]) fun _ _ => by rw [step.tof]
    cases stands with
    | @next j bound mem =>
        by_cases at_k : j = k
        · subst at_k
          exact .inl (step.joins after bound mem old)
        · exact .inr (.next bound (by rwa [step.outNext, if_neg at_k]))
    | @queue j pre post first bound queue head =>
        refine .inr ?_
        rw [← waits, ← step.heap]
        refine .queue bound (by rw [step.outQueue, queue, List.append_assoc, List.cons_append]) ?_
        rw [step.outQueue, List.head?_append, head, Option.some_or]
    | @link j q bound slot =>
        refine .inr ?_
        rw [← waits]
        exact .link bound (by rw [Ring.link, step.incoming]; exact slot)
    | @inbox j pre post bound queue =>
        have stands' := At.inbox (n := n) (σ := σ') bound (by rw [step.inQueue, queue])
        by_cases same : busy n σ' j = busy n σ j
        · rw [same] at stands'
          exact .inr stands'
        · refine .inl (.inr ⟨_, _, stands', ?_⟩)
          have least : busy n σ' j ≤ busy n σ j := by
            unfold busy
            rw [idle]
            split <;> split <;> simp_all
          rw [Place.rank, Place.rank]
          omega

end Spliced

/-! ## Crossing a link -/

/-- A node counts the message of a link down. -/
structure CountedDown (k : Nat) (p : Port) (x : MsgId) (σ σ' : Ring) : Prop where
  tof : σ'.tof = Function.update σ.tof x (σ.tof x - 1)
  outgoing : ∀ j q, (σ'.nodes j).outgoing q =
    if (j = k ∧ q = p) ∧ σ.tof x - 1 ≤ 0 then none else (σ.nodes j).outgoing q
  cacheIn : ∀ j, (σ'.nodes j).cacheIn = (σ.nodes j).cacheIn

theorem countedDown (full : (σ.nodes k).outgoing p = some x) : CountedDown k p x σ (σ.age k p) := by
  by_cases late : σ.tof x - 1 ≤ 0
  · have eq : σ.age k p = { σ with tof := Function.update σ.tof x (σ.tof x - 1) }.update k
        fun y => { y with outgoing := Function.update y.outgoing p none } := by
      simp [age, full, late]
    rw [eq]
    refine ⟨rfl, fun j q => ?_, fun j => ?_⟩
    · rw [update_nodes]
      by_cases at_k : j = k <;> by_cases same : q = p <;> simp [at_k, same, late]
    · rw [update_nodes]
      split <;> rfl
  · have eq : σ.age k p = { σ with tof := Function.update σ.tof x (σ.tof x - 1) } := by
      simp only [age, full, Function.update_self, late, if_false]
    rw [eq]
    exact ⟨rfl, fun j q => by simp [late], fun _ => rfl⟩

theorem age_idle (none : (σ.nodes k).outgoing p = none) : σ.age k p = σ := by
  simp only [age, none]

namespace CountedDown

variable (step : CountedDown k p x σ σ') (same : Same σ σ')
include step same

theorem roomy (here : k < n) (full : (σ.nodes k).outgoing p = some x) (sound : Sound n σ')
    (before : Roomy n F T σ) : Roomy n F T σ' where
  sound := sound
  known := by
    intro j bound q y slot late
    rw [link, same.incoming] at slot
    rw [step.tof] at late
    rw [step.outgoing]
    by_cases eq : y = x
    · subst eq
      rw [Function.update_self] at late
      rw [if_neg fun due => absurd due.2 (not_le.mpr late)]
      exact before.known j bound q y slot (by omega)
    · rw [Function.update_of_ne eq] at late
      have held := before.known j bound q y slot late
      rw [if_neg, held]
      rintro ⟨⟨rfl, rfl⟩, -⟩
      exact eq (Option.some.inj (held.symm.trans full))
  flits := by simpa only [same.heap, same.fresh] using before.flits
  tof := by
    intro y
    rw [step.tof]
    by_cases eq : y = x
    · rw [eq, Function.update_self]
      have := before.tof x
      omega
    · rw [Function.update_of_ne eq]
      exact before.tof y
  room := by
    rw [underway_congr same.fresh same.handed]
    exact before.room

/-- The link is free one turn earlier, the others when they were. -/
theorem waits (here : k < n) (full : (σ.nodes k).outgoing p = some x) (before : Roomy n F T σ) {j : NodeId} {q : Port}
    (bound : j < n) : wait n σ j q = wait n σ' j q + if j = k ∧ q = p then 1 else 0 := by
  obtain ⟨held, late⟩ := before.sound.aliased.held k here p x full
  have slot : link n σ' j q = link n σ j q := by rw [link, link, same.incoming]
  split
  · next mine =>
      obtain ⟨rfl, rfl⟩ := mine
      rw [wait_of_link held, wait_of_link (slot.trans held), step.tof, Function.update_self]
      omega
  · next other =>
      refine (wait_congr slot fun y there => ?_).symm
      rw [step.tof, Function.update_of_ne]
      rintro rfl
      exact other (before.sound.counted.link_unique bound here there held)

theorem forward (here : k < n) (full : (σ.nodes k).outgoing p = some x) (before : Roomy n F T σ) :
    Forward n F T σ σ' where
  fresh := same.fresh.ge
  heap _ _ := by rw [same.heap]
  ended _ _ ended := by
    unfold Ended at ended ⊢
    rwa [same.heap, same.handed]
  moved id _ pl w stands := by
    cases stands with
    | @next j bound mem => exact .inr (.next bound (by rwa [same.outNext]))
    | @queue j pre post first bound queue head =>
        have stands' := At.queue (n := n) (σ := σ') bound (by rw [same.outQueue, queue]) (by rw [same.outQueue, head])
        have less := step.waits same here full before bound (q := port n j (σ.heap first).dst)
        rw [same.heap] at stands'
        by_cases mine : j = k ∧ port n j (σ.heap first).dst = p
        · rw [if_pos mine] at less
          refine .inl (.inr ⟨_, _, stands', ?_⟩)
          rw [same.heap, Place.rank, Place.rank]
          omega
        · rw [if_neg mine, Nat.add_zero] at less
          rw [less]
          exact .inr stands'
    | @link j q bound slot =>
        have stands' := At.link (n := n) (σ := σ') bound (by rw [Ring.link, same.incoming]; exact slot)
        have less := step.waits same here full before bound (q := q)
        by_cases mine : j = k ∧ q = p
        · rw [if_pos mine] at less
          refine .inl (.inr ⟨_, _, stands', ?_⟩)
          rw [same.heap, Place.rank, Place.rank]
          omega
        · rw [if_neg mine, Nat.add_zero] at less
          rw [less]
          exact .inr stands'
    | @inbox j pre post bound queue =>
        refine .inr ?_
        rw [← busy_congr (step.cacheIn j)]
        exact .inbox bound (by rw [same.inQueue, queue])

end CountedDown

end Coherence.Ring
