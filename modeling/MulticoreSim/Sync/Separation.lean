import MulticoreSim.Sync.Exclusion
import Mathlib.Algebra.BigOperators.Group.Finset.Basic
import Mathlib.Algebra.Order.BigOperators.Group.Finset

/-! # Barriers separate

A barrier's iteration counts the arrivals that have retired. With one arrival of
each thread it is full only once all of them have retired theirs, and a leave goes
past its gate only when it is full.
-/

namespace Sync

open Ooo

variable {H : Hardware}

/-! ## What the calls do to the barriers -/

/-- An iteration that everyone it expects has arrived at. -/
def BarrierIter.Full (iter : BarrierIter) : Prop :=
  iter.expected ≠ 0 ∧ iter.expected ≤ iter.arrived

/-- The iteration after an arrival. -/
def BarrierIter.arrive (iter : BarrierIter) (extraArg : Nat) : BarrierIter where
  expected := if iter.expected = 0 ∧ extraArg > 0 then extraArg else iter.expected
  arrived := iter.arrived + 1

namespace Coordinator

variable {c c' : Coordinator} {tid : Nat} {s : SyncRecord}

theorem gate_barriers (c : Coordinator) (tid : Nat) (s : SyncRecord) :
    (c.gate tid s).2.barriers = c.barriers := by
  simp only [gate]
  repeat' split
  all_goals rfl

theorem gate_leave (leave : s.kind = .barrierLeave) (passes : (c.gate tid s).1 = true) :
    (c.barriers s.syncObjectAddr s.sequenceNo).Full := by
  simp only [gate, leave] at passes
  split at passes
  · cases passes
  · next full =>
      rw [not_or, Nat.not_lt] at full
      exact full

theorem tryConsumeSync_barriers {passes : Bool} (ran : c.tryConsumeSync tid s = .ok (passes, c')) :
    c'.barriers = c.barriers ∧ (passes = true → s.kind = .barrierLeave →
      (c.barriers s.syncObjectAddr s.sequenceNo).Full) := by
  have gate := checkTid_bind ran
  have state : (c.gate tid s).2 = c' := congrArg Prod.snd gate
  have flag : (c.gate tid s).1 = passes := congrArg Prod.fst gate
  exact ⟨state ▸ gate_barriers c tid s, fun passed leave => gate_leave leave (flag.trans passed)⟩

theorem onLifecycle_barriers (ran : c.onLifecycle tid = .ok c') : c'.barriers = c.barriers :=
  (checkTid_bind ran) ▸ rfl

/-- An arrival is counted in its iteration; nothing else moves a barrier. -/
theorem signal_barriers (c : Coordinator) (s : SyncRecord) (obj k : Nat) :
    (c.signal s).barriers obj k =
      if s.kind = .barrierArrive ∧ s.syncObjectAddr = obj ∧ s.sequenceNo = k
      then (c.barriers obj k).arrive s.extraArg else c.barriers obj k := by
  by_cases arrive : s.kind = .barrierArrive
  · simp only [signal, arrive, true_and]
    by_cases here : s.syncObjectAddr = obj
    · subst here
      rw [Function.update_self]
      by_cases now : s.sequenceNo = k
      · subst now
        simp [BarrierIter.arrive]
      · rw [Function.update_of_ne (Ne.symm now), if_neg fun both => now both.2]
    · rw [Function.update_of_ne (Ne.symm here), if_neg fun both => here both.1]
  · rw [if_neg fun both => arrive both.1]
    unfold signal
    split <;> first | rfl | exact absurd ‹_› arrive

end Coordinator

/-! ## One core -/

/-- The token is of an arrival at the barrier in the iteration. -/
def arrives (obj k : Nat) : Option SyncToken → Bool
  | some token => token.kind = .barrierArrive && token.syncObjectAddr = obj && token.sequenceNo = k
  | none => false

/-- How often the core has retired an arrival. -/
def arrivals (log : List Event) (obj k : Nat) : Nat :=
  ((Log.retired log).map (·.1.syncToken)).countP (arrives obj k)

/-- The gates of the leaves among some records stand open. -/
def Left (obj : Nat) (iters : Nat → BarrierIter) (records : List TraceRecord) : Prop :=
  ∀ s, .sync s ∈ records → s.kind = .barrierLeave → s.syncObjectAddr = obj →
    (iters s.sequenceNo).Full

/-- Once an iteration is full it stays so. -/
def Fills (iter iter' : BarrierIter) : Prop := iter.Full → iter'.Full

theorem fills_arrive (iter : BarrierIter) (extraArg : Nat) : Fills iter (iter.arrive extraArg) := by
  rintro ⟨known, enough⟩
  unfold BarrierIter.arrive BarrierIter.Full
  rw [if_neg fun both => known both.1]
  exact ⟨known, Nat.le_succ_of_le enough⟩

theorem Left.mono {obj : Nat} {iters iters' : Nat → BarrierIter} {records : List TraceRecord}
    (left : Left obj iters records) (fills : ∀ k, Fills (iters k) (iters' k)) :
    Left obj iters' records := fun s mem leave here => fills _ (left s mem leave here)

theorem Left.append {obj : Nat} {iters : Nat → BarrierIter} {records more : List TraceRecord}
    (left : Left obj iters records) (leftMore : Left obj iters more) :
    Left obj iters (records ++ more) := fun s mem leave here =>
  (List.mem_append.mp mem).elim (left s · leave here) (leftMore s · leave here)

theorem next_left {o o' : (threaded H).State} {out : Option Record} (obj : Nat)
    (ran : (threaded H).next o = .ok (out, o')) :
    ∃ passed, o.reader.ahead = passed ++ o'.reader.ahead ∧ deliverables passed = out.toList ∧
      o'.coordinator.barriers = o.coordinator.barriers ∧
      Left obj (o.coordinator.barriers obj) passed := by
  simp only [threaded] at ran
  split at ran
  · cases ran
  · next read =>
      cases ran
      obtain ⟨passed, passes⟩ := Reader.next_spec read
      obtain ⟨barriers, gates⟩ := passes.admits.gates
        (I := fun c => Coordinator.barriers c = o.coordinator.barriers)
        (G := fun s => s.kind = .barrierLeave →
          (o.coordinator.barriers s.syncObjectAddr s.sequenceNo).Full)
        (fun c s passes c' same consumed => by
          obtain ⟨barriers, gate⟩ := Coordinator.tryConsumeSync_barriers consumed
          exact ⟨barriers.trans same, fun passed leave => same ▸ gate passed leave⟩)
        (fun c c' same told => (Coordinator.onLifecycle_barriers told).trans same) rfl
      refine ⟨passed, passes.ahead, passes.delivered, barriers, fun s mem leave here => ?_⟩
      rw [← here]
      exact gates s mem (by rw [leave]; rfl) leave

/-- What is told of a retired record reaches the barriers and nothing of the reader. -/
theorem told_barriers {o o' : (threaded H).State} {tid pc : Nat} {token : SyncToken}
    (told : (threaded H).notifyRetire o tid token pc = .ok o') :
    o'.reader = o.reader ∧ ∀ obj k, o'.coordinator.barriers obj k =
      if arrives obj k (some token) = true then (o.coordinator.barriers obj k).arrive token.extraArg
      else o.coordinator.barriers obj k := by
  simp only [threaded] at told
  split at told
  · cases told
  · next signalled =>
      cases told
      refine ⟨rfl, fun obj k => ?_⟩
      rw [← Coordinator.checkTid_bind signalled, Coordinator.signal_barriers]
      simp only [arrives, Bool.and_eq_true, decide_eq_true_eq, and_assoc]

theorem arrivals_retire {log : List Event} {inst : Inst} {tag : Nat} (obj k : Nat) :
    arrivals (log ++ [.retired inst tag]) obj k =
      arrivals log obj k + if arrives obj k inst.syncToken then 1 else 0 := by
  rw [arrivals, Log.retired_snoc, List.map_append, List.countP_append, List.map_singleton,
    List.countP_singleton]
  rfl

/-- The file arrives at the barrier with the number of its threads. -/
def Expects (obj total : Nat) (records : List TraceRecord) : Prop :=
  ∀ s, .sync s ∈ records → s.kind = .barrierArrive → s.syncObjectAddr = obj → s.extraArg = total

/-- What a core's own tick keeps, beside the arrivals of the others. -/
structure Approach (obj total : Nat) (records : List TraceRecord) (elsewhere : Nat → Nat)
    (base : Nat → BarrierIter) (v : (threaded H).State × Pipeline) : Prop where
  order : v.2.InOrder
  follows : ∃ done, records = done ++ v.1.reader.ahead ∧ Log.delivered v.2.log = deliverables done ∧
    Left obj (v.1.coordinator.barriers obj) done
  fills : ∀ k, Fills (base k) (v.1.coordinator.barriers obj k)
  arrived : ∀ k, (v.1.coordinator.barriers obj k).arrived ≤ elsewhere k + arrivals v.2.log obj k
  expected : ∀ k, (v.1.coordinator.barriers obj k).expected = 0 ∨
    (v.1.coordinator.barriers obj k).expected = total

namespace Approach

variable {obj total : Nat} {records : List TraceRecord} {elsewhere : Nat → Nat}
  {base : Nat → BarrierIter} {v v' : (threaded H).State × Pipeline}

theorem read {o o' : (threaded H).State} {p p' : Pipeline} {out : Option Record}
    (approach : Approach obj total records elsewhere base (o, p)) (order : p'.InOrder)
    (ran : (threaded H).next o = .ok (out, o'))
    (delivered : Log.delivered p'.log = Log.delivered p.log ++ out.toList)
    (retired : Log.retired p'.log = Log.retired p.log) :
    Approach obj total records elsewhere base (o', p') := by
  obtain ⟨passed, ahead, became, barriers, left⟩ := next_left obj ran
  obtain ⟨done, split, before, leftBefore⟩ := approach.follows
  refine ⟨order, ⟨done ++ passed, ?_, ?_, ?_⟩, ?_, fun k => ?_, ?_⟩
  · rw [split, List.append_assoc, ← ahead]
  · rw [delivered, before, ← became]
    exact (List.filterMap_append ..).symm
  · rw [barriers]
    exact leftBefore.append left
  · rw [barriers]
    exact approach.fills
  · rw [barriers, arrivals, retired]
    exact approach.arrived k
  · rw [barriers]
    exact approach.expected

theorem act (expects : Expects obj total records)
    (approach : Approach obj total records elsewhere base v) (acts : Acts (threaded H) v v') :
    Approach obj total records elsewhere base v' := by
  cases acts with
  | call quiet =>
      obtain ⟨reader, coordinator⟩ := quiet_same quiet
      refine ⟨approach.order, ?_, ?_, ?_, ?_⟩
      · simpa only [reader, coordinator] using approach.follows
      · simpa only [coordinator] using approach.fills
      · simpa only [coordinator] using approach.arrived
      · simpa only [coordinator] using approach.expected
  | starve starved => exact approach.read approach.order starved (List.append_nil _).symm rfl
  | inside step unseen =>
      obtain ⟨done, split, before, left⟩ := approach.follows
      refine ⟨approach.order.step step, ⟨done, split, unseen.1.trans before, left⟩, approach.fills,
        fun k => ?_, approach.expected⟩
      rw [arrivals, unseen.2]
      exact approach.arrived k
  | deliver step delivered log =>
      exact approach.read (approach.order.step step) delivered (by simp [log]) (by simp [log])
  | @retire o o' p p' inst tag step log told =>
      have order := approach.order.step step
      have delivered : Log.delivered p'.log = Log.delivered p.log := by simp [log]
      have retired : Log.retired p'.log = Log.retired p.log ++ [(inst, tag)] := by simp [log]
      have count : ∀ k, arrivals p'.log obj k =
          arrivals p.log obj k + if arrives obj k inst.syncToken then 1 else 0 := by
        intro k
        rw [log, arrivals_retire]
      obtain ⟨done, split, before, left⟩ := approach.follows
      rcases told with ⟨rfl, -⟩ | ⟨token, sync, told⟩
      · refine ⟨order, ⟨done, split, delivered.trans before, left⟩, approach.fills, fun k => ?_,
          approach.expected⟩
        have arrived := approach.arrived k
        rw [count]
        exact arrived.trans (Nat.add_le_add_left (Nat.le_add_right ..) _)
      · obtain ⟨s, past, rfl⟩ := token_of_done order (delivered.trans before)
          (retired ▸ List.mem_append_right _ (List.mem_singleton_self _)) sync
        obtain ⟨reader, barriers⟩ := told_barriers told
        have fills : ∀ k, Fills (o.coordinator.barriers obj k) (o'.coordinator.barriers obj k) := by
          intro k
          rw [barriers]
          split
          · exact fills_arrive _ _
          · exact id
        refine ⟨order, ⟨done, ?_, delivered.trans before, left.mono fills⟩,
          fun k full => fills k (approach.fills k full), fun k => ?_, fun k => ?_⟩
        · rw [reader]
          exact split
        · have arrived := approach.arrived k
          rw [barriers, count, sync]
          split
          · exact Nat.succ_le_succ arrived
          · exact arrived.trans (Nat.add_le_add_left (Nat.le_add_right ..) _)
        · rw [barriers]
          split
          · next here =>
              simp only [arrives, SyncRecord.token, Bool.and_eq_true] at here
              have extra := expects s (split ▸ List.mem_append_left _ past) (of_decide_eq_true here.1.1)
                (of_decide_eq_true here.1.2)
              unfold BarrierIter.arrive
              dsimp only
              split
              · exact .inr extra
              · exact approach.expected k
          · exact approach.expected k

end Approach

/-! ## All threads -/

/-- The thread's file arrives at the barrier in the iteration, at the place. -/
def ArriveAt (traces : Nat → List TraceRecord) (i p obj k : Nat) : Prop :=
  ∃ s, (traces i)[p]? = some (.sync s) ∧ s.kind = .barrierArrive ∧ s.syncObjectAddr = obj ∧
    s.sequenceNo = k

def LeaveAt (traces : Nat → List TraceRecord) (i p obj k : Nat) : Prop :=
  ∃ s, (traces i)[p]? = some (.sync s) ∧ s.kind = .barrierLeave ∧ s.syncObjectAddr = obj ∧
    s.sequenceNo = k

/-- The threads cross the barrier, each once in an iteration, and all of them are expected. -/
structure Crossed (traces : Nat → List TraceRecord) (obj : Nat) (threads : Finset Nat) : Prop where
  once : ∀ i k p q, ArriveAt traces i p obj k → ArriveAt traces i q obj k → p = q
  members : ∀ i k p, ArriveAt traces i p obj k → i ∈ threads
  expects : ∀ i, Expects obj threads.card (traces i)

/-- Elements that meet `p` at one place at most are counted once at most. -/
theorem countP_le_one {α : Type} {p : α → Bool} {l : List α}
    (once : ∀ (i j : Nat) (x y : α), l[i]? = some x → l[j]? = some y → p x = true → p y = true → i = j) :
    l.countP p ≤ 1 := by
  induction l with
  | nil => exact Nat.zero_le _
  | cons x rest ih =>
      rw [List.countP_cons]
      split
      · next first =>
          have none : rest.countP p = 0 := by
            refine List.countP_eq_zero.mpr fun y mem meets => ?_
            obtain ⟨j, here⟩ := List.mem_iff_getElem?.mp mem
            exact absurd (once 0 (j + 1) x y rfl here first meets) (Nat.succ_ne_zero j).symm
          omega
      · exact ih fun i j x y left right meets meets' =>
          Nat.succ.inj (once (i + 1) (j + 1) x y left right meets meets')

/-- The invariant of all threads together. -/
structure Gathered (traces : Nat → List TraceRecord) (obj : Nat) (threads : Finset Nat)
    (s : Threads H) : Prop where
  order : ∀ i, (s.cores i).pipe.InOrder
  follows : ∀ i, ∃ done, traces i = done ++ (s.cores i).outside.reader.ahead ∧
    Log.delivered (s.cores i).log = deliverables done ∧ Left obj (s.coordinator.barriers obj) done
  arrived : ∀ k, (s.coordinator.barriers obj k).arrived ≤
    ∑ i ∈ threads, arrivals (s.cores i).log obj k
  expected : ∀ k, (s.coordinator.barriers obj k).expected = 0 ∨
    (s.coordinator.barriers obj k).expected = threads.card

section

variable {traces : Nat → List TraceRecord} {obj : Nat} {threads : Finset Nat} {s : Threads H}

/-- A retired arrival is in the core's own file. -/
theorem arrival_at {p : Pipeline} (order : p.InOrder) {i k : Nat} {done ahead : List TraceRecord}
    (split : traces i = done ++ ahead) (delivered : Log.delivered p.log = deliverables done)
    (some_ : 0 < arrivals p.log obj k) :
    ∃ inst tag token, (inst, tag) ∈ Log.retired p.log ∧ inst.syncToken = some token ∧
      arrives obj k (some token) = true ∧ ∃ (q : Nat) (s : SyncRecord),
        (traces i)[q]? = some (.sync s) ∧ s.token = token := by
  obtain ⟨found, mem, arrive⟩ := List.countP_pos_iff.mp some_
  obtain ⟨⟨inst, tag⟩, retired, rfl⟩ := List.mem_map.mp mem
  dsimp only at arrive
  cases sync : inst.syncToken with
  | none => simp [sync, arrives] at arrive
  | some token =>
      obtain ⟨s, past, same⟩ := token_of_done order delivered retired sync
      obtain ⟨q, bound, here⟩ := List.getElem_of_mem past
      refine ⟨inst, tag, token, retired, sync, sync ▸ arrive, q, s, ?_, same⟩
      rw [split, List.getElem?_append_left bound, List.getElem?_eq_getElem bound, here]

theorem arriveAt_of_token {i q k : Nat} {s : SyncRecord} (here : (traces i)[q]? = some (.sync s))
    (arrive : arrives obj k (some s.token) = true) : ArriveAt traces i q obj k := by
  simp only [arrives, SyncRecord.token, Bool.and_eq_true] at arrive
  exact ⟨s, here, of_decide_eq_true arrive.1.1, of_decide_eq_true arrive.1.2,
    of_decide_eq_true arrive.2⟩

/-- A thread that does not cross the barrier has retired no arrival. -/
theorem Crossed.arrivals_stranger (crossed : Crossed traces obj threads) {p : Pipeline}
    (order : p.InOrder) {i : Nat} {done ahead : List TraceRecord} (split : traces i = done ++ ahead)
    (delivered : Log.delivered p.log = deliverables done) (stranger : i ∉ threads) (k : Nat) :
    arrivals p.log obj k = 0 := by
  by_contra some_
  obtain ⟨-, -, token, -, -, arrive, q, s, here, rfl⟩ :=
    arrival_at order split delivered (Nat.pos_of_ne_zero some_)
  exact stranger (crossed.members i k q (arriveAt_of_token here arrive))

theorem Crossed.arrivals_le (crossed : Crossed traces obj threads) {p : Pipeline}
    (order : p.InOrder) {i : Nat} {done ahead : List TraceRecord} (split : traces i = done ++ ahead)
    (delivered : Log.delivered p.log = deliverables done) (k : Nat) :
    arrivals p.log obj k ≤ 1 := by
  have retired : (Log.retired p.log).map (·.1.syncToken) <+: (deliverables (traces i)).map (·.syncToken) := by
    have tokens := order.retired_prefix.map (·.syncToken)
    rw [order.delivered, List.map_map] at tokens
    refine tokens.trans (List.IsPrefix.map _ ?_)
    rw [delivered, split, deliverables, deliverables, List.filterMap_append]
    exact List.prefix_append ..
  refine retired.countP_le.trans ?_
  rw [List.countP_map, deliverables, List.countP_filterMap]
  refine countP_le_one fun q q' x y left right meets meets' => ?_
  have at_ : ∀ {q x}, (traces i)[q]? = some x →
      ((deliverable x).map (arrives obj k ∘ fun r => r.syncToken)).getD false = true →
      ArriveAt traces i q obj k := by
    intro q x here meets
    cases x with
    | instr record plain => simp [deliverable, plain, arrives] at meets
    | lifecycle | malformed => simp [deliverable] at meets
    | sync s =>
        simp only [deliverable] at meets
        split at meets
        · exact arriveAt_of_token here meets
        · cases meets
  exact crossed.once i k q q' (at_ left meets) (at_ right meets')

/-- The arrivals of the other threads. -/
def elsewhere (s : Threads H) (obj : Nat) (threads : Finset Nat) (i k : Nat) : Nat :=
  ∑ j ∈ threads.erase i, arrivals (s.cores j).log obj k

theorem Gathered.approach (gathered : Gathered traces obj threads s) (i : Nat) :
    Approach obj threads.card (traces i) (elsewhere s obj threads i) (s.coordinator.barriers obj)
      (s.core i).view := by
  refine ⟨gathered.order i, gathered.follows i, fun _ => id, fun k => ?_, gathered.expected⟩
  refine (gathered.arrived k).trans ?_
  by_cases mem : i ∈ threads
  · exact (Finset.sum_erase_add _ _ mem).ge
  · rw [elsewhere, Finset.erase_eq_of_notMem mem]
    exact Nat.le_add_right ..

theorem Approach.put (crossed : Crossed traces obj threads) {i : Nat} {c : Core (threaded H)}
    (gathered : Gathered traces obj threads s)
    (approach : Approach obj threads.card (traces i) (elsewhere s obj threads i)
      (s.coordinator.barriers obj) c.view) : Gathered traces obj threads (s.put i c) := by
  have other : ∀ {j}, j ≠ i → (s.put i c).cores j = s.cores j := fun diff => Function.update_of_ne diff ..
  have own : (s.put i c).cores i = c := Function.update_self ..
  refine ⟨fun j => ?_, fun j => ?_, fun k => ?_, approach.expected⟩
  · by_cases here : j = i
    · subst here
      rw [own]
      exact approach.order
    · rw [other here]
      exact gathered.order j
  · by_cases here : j = i
    · subst here
      rw [own]
      exact approach.follows
    · rw [other here]
      obtain ⟨done, split, delivered, left⟩ := gathered.follows j
      exact ⟨done, split, delivered, left.mono approach.fills⟩
  · refine (approach.arrived k).trans ?_
    have others : ∑ j ∈ threads.erase i, arrivals ((s.put i c).cores j).log obj k =
        elsewhere s obj threads i k :=
      Finset.sum_congr rfl fun j mem => by rw [other (Finset.ne_of_mem_erase mem)]
    by_cases mem : i ∈ threads
    · rw [← Finset.sum_erase_add _ _ mem, own, others]
      exact Nat.le_refl _
    · obtain ⟨done, split, delivered, -⟩ := approach.follows
      rw [Finset.erase_eq_of_notMem mem] at others
      rw [others, crossed.arrivals_stranger approach.order split delivered mem]
      exact Nat.le_refl _

theorem gathered_run {numThreads : Nat} {cfg : Nat → OooConfig} {hardware : Nat → H.State}
    (crossed : Crossed traces obj threads)
    (run : (Threads.machine H).Reachable (Threads.start numThreads traces cfg hardware) s) :
    Gathered traces obj threads s := by
  refine run.invariant ?_ fun s action s' gathered _ stepped => ?_
  · exact ⟨fun i => inOrder_run .start, fun i => ⟨[], rfl, rfl, nofun⟩, fun k => Nat.zero_le _,
      fun k => .inl rfl⟩
  · cases action with
    | tick i =>
        simp only [Threads.machine, Except.map] at stepped
        split at stepped
        · cases stepped
        · next ticked =>
            cases stepped
            have runs := Core.tick_runs ticked
            exact Approach.put crossed gathered
              (runs.keeps (fun _ _ approach acts => approach.act (crossed.expects i) acts)
                (gathered.approach i))
    | hardware i state =>
        cases stepped
        obtain ⟨order, follows, fills, arrived, expected⟩ := gathered.approach i
        exact Approach.put crossed gathered ⟨order, follows, fills, arrived, expected⟩

/-- A full iteration has the retired arrival of every thread. -/
theorem Gathered.all_arrived (gathered : Gathered traces obj threads s)
    (crossed : Crossed traces obj threads) {k : Nat} (full : (s.coordinator.barriers obj k).Full)
    {i : Nat} (mem : i ∈ threads) : 0 < arrivals (s.cores i).log obj k := by
  by_contra none
  have expected := (gathered.expected k).resolve_left full.1
  have arrived := gathered.arrived k
  have enough := full.2
  have fewer : ∑ j ∈ threads, arrivals (s.cores j).log obj k < threads.card := by
    rw [Finset.card_eq_sum_ones]
    refine Finset.sum_lt_sum (fun j _ => ?_) ⟨i, mem, by omega⟩
    obtain ⟨done, split, delivered, -⟩ := gathered.follows j
    exact crossed.arrivals_le (gathered.order j) split delivered k
  omega

/-- No record behind a leave is delivered before every thread has retired everything
    before its arrival in the same iteration. -/
theorem barrier_separates {numThreads : Nat} {cfg : Nat → OooConfig} {hardware : Nat → H.State}
    (crossed : Crossed traces obj threads)
    (run : (Threads.machine H).Reachable (Threads.start numThreads traces cfg hardware) s)
    {i p k : Nat} (leave : LeaveAt traces i p obj k)
    (delivered : (deliverables ((traces i).take p)).length < (Log.delivered (s.cores i).log).length) :
    ∀ j ∈ threads, (∃ q, ArriveAt traces j q obj k) ∧ ∀ q, ArriveAt traces j q obj k →
      deliverables ((traces j).take q) <+: retiredRecords (s.cores j).log := by
  have gathered := gathered_run (H := H) crossed run
  have full : (s.coordinator.barriers obj k).Full := by
    obtain ⟨l, here, kind, object, rfl⟩ := leave
    obtain ⟨done, split, records, left⟩ := gathered.follows i
    refine left l ?_ kind object
    have past : p < done.length := by
      by_contra short
      have before : done <+: (traces i).take p := by
        rw [split, List.take_append, List.take_of_length_le (Nat.le_of_not_lt short)]
        exact List.prefix_append ..
      have fewer := (before.filterMap deliverable).length_le
      rw [records] at delivered
      exact absurd delivered (Nat.not_lt_of_le fewer)
    rw [split, List.getElem?_append_left past] at here
    exact List.mem_of_getElem? here
  intro j mem
  obtain ⟨done, split, records, -⟩ := gathered.follows j
  obtain ⟨inst, tag, token, retired, sync, arrive, q, a, here, rfl⟩ :=
    arrival_at (gathered.order j) split records (gathered.all_arrived crossed full mem)
  have at_q := arriveAt_of_token here arrive
  refine ⟨⟨q, at_q⟩, fun q' at_q' => ?_⟩
  refine records_retired (gathered.order j) split records retired sync fun q'' less r found same => ?_
  have earlier : ArriveAt traces j q'' obj k := arriveAt_of_token found (same ▸ arrive)
  exact Nat.ne_of_lt less (crossed.once j k q'' q' earlier at_q')

end

/-! Two threads at one barrier. -/

/-- Each thread crosses once, between two instructions. -/
def crossing : Nat → List TraceRecord
  | 0 => [.instr { ip := 20 } rfl, .sync { kind := .barrierArrive, syncObjectAddr := 7, extraArg := 2 },
      .sync { kind := .barrierLeave, syncObjectAddr := 7 }, .instr { ip := 24 } rfl]
  | 1 => [.instr { ip := 12 } rfl, .sync { kind := .barrierArrive, syncObjectAddr := 7, extraArg := 2 },
      .sync { kind := .barrierLeave, syncObjectAddr := 7 }, .instr { ip := 16 } rfl]
  | _ => []

theorem crossing_arrive {i p k : Nat} : ArriveAt crossing i p 7 k ↔ i < 2 ∧ p = 1 ∧ k = 0 := by
  unfold ArriveAt
  match i, p with
  | 0, 0 | 0, 1 | 0, 2 | 0, 3 | 0, _ + 4 | 1, 0 | 1, 1 | 1, 2 | 1, 3 | 1, _ + 4 | _ + 2, _ =>
      simp [crossing, eq_comm]

theorem crossing_crossed : Crossed crossing 7 {0, 1} := by
  refine ⟨fun i k p q left right => ?_, fun i k p arrive => ?_, fun i s mem arrive here => ?_⟩
  · rw [crossing_arrive] at left right
    omega
  · rw [crossing_arrive] at arrive
    rw [Finset.mem_insert, Finset.mem_singleton]
    omega
  · match i with
    | 0 | 1 =>
        simp only [crossing, List.mem_cons, reduceCtorEq, TraceRecord.sync.injEq, false_or,
          List.not_mem_nil, or_false] at mem
        rcases mem with rfl | rfl
        · rfl
        · cases arrive
    | _ + 2 => cases mem

/-- Both cores tick in turn. -/
def barrierRun (n : Nat) : Threads plainHardware :=
  (Threads.machine plainHardware).attempt (Threads.start 2 crossing (fun _ => {}) fun _ => ())
    ((List.replicate n [.tick 0, .tick 1]).flatten)

theorem barrierRun_delivered : (Log.delivered ((barrierRun 6).cores 0).log).length = 3 := by
  decide +kernel

theorem barrier_separates_crossing : [{ ip := 12 }] <+: retiredRecords ((barrierRun 6).cores 1).log := by
  have delivered := barrierRun_delivered
  have run : (Threads.machine plainHardware).Reachable
      (Threads.start 2 crossing (fun _ => {}) fun _ => ()) (barrierRun 6) :=
    Machine.reachable_attempt ..
  -- From here on the state is known by these facts alone.
  generalize barrierRun 6 = s at delivered run ⊢
  have leave : LeaveAt crossing 0 2 7 0 := ⟨{ kind := .barrierLeave, syncObjectAddr := 7 }, rfl, rfl, rfl, rfl⟩
  have behind : (deliverables ((crossing 0).take 2)).length < (Log.delivered (s.cores 0).log).length := by
    rw [delivered]
    decide
  have separated := barrier_separates crossing_crossed run leave behind 1 (by decide)
  exact separated.2 1 (crossing_arrive.mpr (by decide))

end Sync
