import MulticoreSim.Sync.Separation

/-! # Barriers do not deadlock

Threads that cross a barrier in turn, with the numbers of their own crossings, never
wait for each other all at once.
-/

namespace Sync

open Ooo

variable {H : Hardware}

/-! ## Files -/

/-- The arrivals at a barrier and the leaves among some records, with their iterations. -/
def crossings (obj : Nat) (records : List TraceRecord) : List (SyncKind × Nat) :=
  records.filterMap fun
    | .sync s =>
        if (s.kind = .barrierArrive ∨ s.kind = .barrierLeave) ∧ s.syncObjectAddr = obj
        then some (s.kind, s.sequenceNo) else none
    | _ => none

/-- The first `count` crossings of a thread. -/
def rounds (count : Nat) : List (SyncKind × Nat) :=
  (List.range count).flatMap fun k => [(.barrierArrive, k), (.barrierLeave, k)]

/-- The place of an event among the rounds. -/
def place : SyncKind × Nat → Nat
  | (.barrierArrive, k) => 2 * k
  | (_, k) => 2 * k + 1

theorem rounds_succ (count : Nat) :
    rounds (count + 1) = rounds count ++ [(.barrierArrive, count), (.barrierLeave, count)] := by
  rw [rounds, List.range_succ, List.flatMap_append, List.flatMap_singleton]
  rfl

theorem mem_rounds {count k : Nat} {kind : SyncKind} :
    (kind, k) ∈ rounds count ↔ (kind = .barrierArrive ∨ kind = .barrierLeave) ∧ k < count := by
  simp only [rounds, List.mem_flatMap, List.mem_range, List.mem_cons, Prod.mk.injEq,
    List.not_mem_nil, or_false]
  constructor
  · rintro ⟨k, below, ⟨rfl, rfl⟩ | ⟨rfl, rfl⟩⟩
    · exact ⟨.inl rfl, below⟩
    · exact ⟨.inr rfl, below⟩
  · rintro ⟨rfl | rfl, below⟩
    · exact ⟨k, below, .inl ⟨rfl, rfl⟩⟩
    · exact ⟨k, below, .inr ⟨rfl, rfl⟩⟩

theorem rounds_increasing (count : Nat) : (rounds count).Pairwise fun a b => place a < place b := by
  induction count with
  | zero => exact .nil
  | succ count ih =>
      rw [rounds_succ]
      apply List.pairwise_append.mpr
      refine ⟨ih, by simp [place], ?_⟩
      rintro ⟨kind, k⟩ mem b last
      obtain ⟨known, below⟩ := mem_rounds.mp mem
      simp only [List.mem_cons, List.not_mem_nil, or_false] at last
      rcases known with rfl | rfl <;> rcases last with rfl | rfl <;> simp only [place] <;> omega

theorem rounds_nodup (count : Nat) : (rounds count).Nodup := by
  apply (rounds_increasing count).imp
  intro a b less same
  exact Nat.ne_of_lt less (congrArg place same)

/-- Whoever is about to leave a round has arrived in it and in all before it. -/
theorem arrived_of_leaving {count k : Nat} {before after : List (SyncKind × Nat)}
    (split : rounds count = before ++ (.barrierLeave, k) :: after) {j : Nat} (early : j ≤ k) :
    (.barrierArrive, j) ∈ before := by
  have here : (SyncKind.barrierLeave, k) ∈ rounds count := by
    rw [split]
    exact List.mem_append_right _ List.mem_cons_self
  have below := (mem_rounds.mp here).2
  have arrival : (SyncKind.barrierArrive, j) ∈ rounds count := mem_rounds.mpr ⟨.inl rfl, by omega⟩
  have order := rounds_increasing count
  rw [split] at arrival order
  rcases List.mem_append.mp arrival with done | ahead
  · exact done
  · have later := (List.pairwise_append.mp order).2.1
    rcases List.mem_cons.mp ahead with same | after
    · cases same
    · have less := (List.pairwise_cons.mp later).1 _ after
      simp only [place] at less
      omega

theorem crossings_append (obj : Nat) (xs ys : List TraceRecord) :
    crossings obj (xs ++ ys) = crossings obj xs ++ crossings obj ys := List.filterMap_append

theorem crossings_cons (obj : Nat) (r : TraceRecord) (rest : List TraceRecord) :
    crossings obj (r :: rest) = crossings obj [r] ++ crossings obj rest := crossings_append obj [r] rest

theorem crossings_arrive {obj k : Nat} {s : SyncRecord} (arrive : arrives obj k (some s.token) = true) :
    crossings obj [.sync s] = [(.barrierArrive, k)] := by
  simp only [arrives, SyncRecord.token, Bool.and_eq_true] at arrive
  have kind := of_decide_eq_true arrive.1.1
  have object := of_decide_eq_true arrive.1.2
  have number := of_decide_eq_true arrive.2
  simp [crossings, kind, object, number]

theorem crossings_other {obj k : Nat} {s : SyncRecord} (other : ¬arrives obj k (some s.token) = true) :
    (SyncKind.barrierArrive, k) ∉ crossings obj [.sync s] := by
  simp only [crossings, List.filterMap_cons, List.filterMap_nil]
  split
  · exact List.not_mem_nil
  · next found =>
      split at found
      · next here =>
          cases found
          intro mem
          obtain ⟨kind, number⟩ := Prod.mk.inj (List.mem_singleton.mp mem)
          exact other (by simp [arrives, SyncRecord.token, ← kind, here.2, number])
      · cases found

/-- The arrivals that the core is given are those of the file. -/
theorem countP_arrives (obj k : Nat) (records : List TraceRecord) :
    ((deliverables records).map (·.syncToken)).countP (arrives obj k) =
      (crossings obj records).count (.barrierArrive, k) := by
  induction records with
  | nil => rfl
  | cons r rest ih =>
      rw [crossings_cons, List.count_append, ← ih, deliverables, List.filterMap_cons]
      cases r with
      | lifecycle | malformed => exact (Nat.zero_add _).symm
      | instr record plain =>
          simp only [deliverable, List.map_cons, List.countP_cons, plain]
          exact Nat.add_comm ..
      | sync s =>
          by_cases arrive : arrives obj k (some s.token) = true
          · have kind : s.kind = .barrierArrive := by
              simp only [arrives, SyncRecord.token, Bool.and_eq_true] at arrive
              exact of_decide_eq_true arrive.1.1
            simp only [deliverable, kind, surfacesAsPseudo, if_true, List.map_cons, List.countP_cons,
              pseudoRecord, arrive, crossings_arrive arrive, List.count_singleton_self]
            exact Nat.add_comm ..
          · rw [List.count_eq_zero_of_not_mem (crossings_other arrive), Nat.zero_add]
            simp only [deliverable]
            split
            · next found =>
                split at found
                · cases found
                · rfl
            · next found =>
                split at found
                · cases found
                  rw [List.map_cons, List.countP_cons_of_neg]
                  · rfl
                  · exact arrive
                · cases found

/-! ## One tick -/

/-- No arrival that has retired is lost, and an iteration that was arrived in knows how
    many are expected. -/
structure Counted (obj : Nat) (elsewhere : Nat → Nat) (v : (threaded H).State × Pipeline) : Prop where
  truthful : v.2.Truthful
  counted : ∀ k, elsewhere k + arrivals v.2.log obj k ≤ (v.1.coordinator.barriers obj k).arrived
  known : ∀ k, (v.1.coordinator.barriers obj k).arrived ≠ 0 →
    (v.1.coordinator.barriers obj k).expected ≠ 0

theorem BarrierIter.arrive_known {iter : BarrierIter} {extraArg : Nat} (some : extraArg ≠ 0) :
    (iter.arrive extraArg).expected ≠ 0 := by
  unfold arrive
  dsimp only
  split
  · exact some
  · omega

namespace Counted

variable {obj total : Nat} {records : List TraceRecord} {elsewhere fewer : Nat → Nat}
  {base : Nat → BarrierIter} {v v' : (threaded H).State × Pipeline}

theorem read {o o' : (threaded H).State} {p p' : Pipeline} {out : Option Record}
    (counted : Counted obj elsewhere (o, p)) (truthful : p'.Truthful)
    (ran : (threaded H).next o = .ok (out, o')) (retired : Log.retired p'.log = Log.retired p.log) :
    Counted obj elsewhere (o', p') := by
  obtain ⟨-, -, -, barriers, -⟩ := next_left obj ran
  refine ⟨truthful, fun k => ?_, fun k => ?_⟩
  · rw [barriers, arrivals, retired]
    exact counted.counted k
  · rw [barriers]
    exact counted.known k

theorem act (some : total ≠ 0) (expects : Expects obj total records)
    (approach : Approach obj total records fewer base v) (counted : Counted obj elsewhere v)
    (acts : Acts (threaded H) v v') : Counted obj elsewhere v' := by
  cases acts with
  | call quiet =>
      obtain ⟨-, coordinator⟩ := quiet_same quiet
      refine ⟨counted.truthful, ?_, ?_⟩
      · simpa only [coordinator] using counted.counted
      · simpa only [coordinator] using counted.known
  | starve starved => exact counted.read counted.truthful starved rfl
  | inside step unseen =>
      refine ⟨counted.truthful.step step, fun k => ?_, counted.known⟩
      rw [arrivals, unseen.2]
      exact counted.counted k
  | deliver step delivered log => exact counted.read (counted.truthful.step step) delivered (by simp [log])
  | @retire o o' p p' inst tag step log told =>
      have order := approach.order.step step
      have truthful := counted.truthful.step step
      have retired : (inst, tag) ∈ Log.retired p'.log := by simp [log]
      refine ⟨truthful, fun k => ?_, fun k => ?_⟩
      · have before := counted.counted k
        rw [log, arrivals_retire]
        rcases told with ⟨rfl, untold⟩ | ⟨token, sync, told⟩
        · have none : inst.syncToken = none := by
            rcases untold with none | mispredict
            · exact none
            · have fetched := order.retired_prefix.subset (List.mem_map_of_mem (f := Prod.fst) retired)
              exact truthful inst fetched mispredict
          simpa [none, arrives] using before
        · rw [(told_barriers told).2, sync]
          split
          · exact Nat.succ_le_succ before
          · exact before
      · rcases told with ⟨rfl, -⟩ | ⟨token, sync, told⟩
        · exact counted.known k
        · obtain ⟨done, split_, delivered, -⟩ := approach.follows
          have delivered' : Log.delivered p'.log = deliverables done := by
            rw [← delivered]
            simp [log]
          obtain ⟨s, past, rfl⟩ := token_of_done order delivered' retired sync
          rw [(told_barriers told).2]
          split
          · next here =>
              simp only [arrives, SyncRecord.token, Bool.and_eq_true] at here
              have extra := expects s (split_ ▸ List.mem_append_left _ past)
                (of_decide_eq_true here.1.1) (of_decide_eq_true here.1.2)
              intro _
              apply BarrierIter.arrive_known
              exact fun none => some (extra.symm.trans none)
          · exact counted.known k

end Counted

/-! ## All threads -/

/-- As `Counted`, of all threads together. -/
structure Tallied (obj : Nat) (threads : Finset Nat) (s : Threads H) : Prop where
  truthful : ∀ i, (s.cores i).pipe.Truthful
  counted : ∀ k, ∑ i ∈ threads, arrivals (s.cores i).log obj k ≤ (s.coordinator.barriers obj k).arrived
  known : ∀ k, (s.coordinator.barriers obj k).arrived ≠ 0 → (s.coordinator.barriers obj k).expected ≠ 0

section

variable {traces : Nat → List TraceRecord} {obj : Nat} {threads : Finset Nat} {s : Threads H}

theorem Tallied.core (tallied : Tallied obj threads s) (crossed : Crossed traces obj threads)
    (gathered : Gathered traces obj threads s) (i : Nat) :
    Counted obj (elsewhere s obj threads i) (s.core i).view := by
  refine ⟨tallied.truthful i, fun k => ?_, tallied.known⟩
  have all := tallied.counted k
  by_cases mem : i ∈ threads
  · rw [← Finset.sum_erase_add _ _ mem] at all
    exact all
  · obtain ⟨done, split, delivered, -⟩ := gathered.follows i
    have none : arrivals (s.cores i).log obj k = 0 :=
      crossed.arrivals_stranger (gathered.order i) split delivered mem k
    rw [elsewhere, Finset.erase_eq_of_notMem mem]
    change _ + arrivals (s.cores i).log obj k ≤ _
    rw [none]
    exact all

theorem Counted.put {i : Nat} {c : Core (threaded H)} (tallied : Tallied obj threads s)
    (counted : Counted obj (elsewhere s obj threads i) c.view) : Tallied obj threads (s.put i c) := by
  have other : ∀ {j}, j ≠ i → (s.put i c).cores j = s.cores j := fun diff => Function.update_of_ne diff ..
  have own : (s.put i c).cores i = c := Function.update_self ..
  refine ⟨fun j => ?_, fun k => ?_, counted.known⟩
  · by_cases here : j = i
    · subst here
      rw [own]
      exact counted.truthful
    · rw [other here]
      exact tallied.truthful j
  · have all := counted.counted k
    have others : ∑ j ∈ threads.erase i, arrivals ((s.put i c).cores j).log obj k =
        elsewhere s obj threads i k :=
      Finset.sum_congr rfl fun j mem => by rw [other (Finset.ne_of_mem_erase mem)]
    by_cases mem : i ∈ threads
    · rw [← Finset.sum_erase_add _ _ mem, own, others]
      exact all
    · rw [Finset.erase_eq_of_notMem mem] at others
      rw [others]
      exact (Nat.le_add_right ..).trans all

theorem tallied_run {numThreads : Nat} {cfg : Nat → OooConfig} {hardware : Nat → H.State}
    (some : threads.card ≠ 0) (crossed : Crossed traces obj threads)
    (run : (Threads.machine H).Reachable (Threads.start numThreads traces cfg hardware) s) :
    Tallied obj threads s := by
  refine run.invariant_under (fun s run => gathered_run crossed run) ?_
    fun s action s' gathered tallied _ stepped => ?_
  · refine ⟨fun i inst mem => ?_, fun k => ?_, fun k none => (none rfl).elim⟩
    · exact absurd mem List.not_mem_nil
    · exact (Finset.sum_eq_zero fun i _ => rfl).le
  · cases action with
    | tick i =>
        obtain ⟨r, ticked, rfl⟩ : ∃ r, (s.core i).tick = .ok r ∧ s.put i r.2 = s' := by
          simp only [Threads.machine, Except.map] at stepped
          split at stepped
          · cases stepped
          · next r ticked => exact ⟨r, ticked, Except.ok.inj stepped⟩
        have kept := (Core.tick_runs ticked).keeps
          (I := fun v => Approach obj threads.card (traces i) (elsewhere s obj threads i)
            (s.coordinator.barriers obj) v ∧ Counted obj (elsewhere s obj threads i) v)
          (fun _ _ both acts => ⟨both.1.act (crossed.expects i) acts,
            both.2.act some (crossed.expects i) both.1 acts⟩)
          ⟨gathered.approach i, tallied.core crossed gathered i⟩
        exact Counted.put tallied kept.2
    | hardware i state =>
        cases stepped
        obtain ⟨truthful, counted, known⟩ := tallied.core crossed gathered i
        exact Counted.put tallied ⟨truthful, counted, known⟩

/-! ## Deadlock -/

/-- Every thread crosses the barrier `count` times and numbers its crossings by itself. -/
structure InTurn (traces : Nat → List TraceRecord) (obj : Nat) (threads : Finset Nat) (count : Nat) :
    Prop where
  each : ∀ i ∈ threads, crossings obj (traces i) = rounds count
  others : ∀ i ∉ threads, crossings obj (traces i) = []
  expects : ∀ i, Expects obj threads.card (traces i)

/-- The thread's reader holds a leave whose gate is shut. -/
def Waits (s : Threads H) (obj i k : Nat) : Prop :=
  ∃ l, (s.cores i).outside.reader.pendingSync = some l ∧ l.kind = .barrierLeave ∧
    l.syncObjectAddr = obj ∧ l.sequenceNo = k ∧ ¬(s.coordinator.barriers obj k).Full

/-- Somebody waits at the barrier, and whoever does not has no more to do there, with
    nothing in flight on any of their cores. -/
structure Deadlocked (s : Threads H) (obj : Nat) (threads : Finset Nat) : Prop where
  waits : ∃ i ∈ threads, ∃ k, Waits s obj i k
  drained : ∀ i ∈ threads, (Log.retired (s.cores i).log).length = (Log.delivered (s.cores i).log).length
  stuck : ∀ i ∈ threads, (∃ k, Waits s obj i k) ∨ crossings obj (s.cores i).outside.reader.ahead = []

/-- Two places of a list do not give the same where what is given is without repetition. -/
theorem place_unique {α β : Type} {f : α → Option β} {l : List α} (nodup : (l.filterMap f).Nodup)
    {p q : Nat} {x y : α} {b : β} (left : l[p]? = some x) (right : l[q]? = some y)
    (fx : f x = some b) (fy : f y = some b) : p = q := by
  induction l generalizing p q with
  | nil => cases left
  | cons z rest ih =>
      have behind : ∀ {n w}, rest[n]? = some w → f w = some b → b ∈ rest.filterMap f := fun here fw =>
        List.mem_filterMap.mpr ⟨_, List.mem_of_getElem? here, fw⟩
      have tail : (rest.filterMap f).Nodup := nodup.sublist ((List.sublist_cons_self z rest).filterMap f)
      cases p with
      | zero =>
          cases q with
          | zero => rfl
          | succ q =>
              cases left
              rw [List.filterMap_cons_some fx] at nodup
              exact absurd (behind right fy) (List.nodup_cons.mp nodup).1
      | succ p =>
          cases q with
          | zero =>
              cases right
              rw [List.filterMap_cons_some fy] at nodup
              exact absurd (behind left fx) (List.nodup_cons.mp nodup).1
          | succ q => exact congrArg Nat.succ (ih tail left right)

variable {count : Nat}

theorem InTurn.crossed (turn : InTurn traces obj threads count) : Crossed traces obj threads := by
  refine ⟨fun i k p q left right => ?_, fun i k p arrive => ?_, turn.expects⟩
  · obtain ⟨a, at_p, kind, object, number⟩ := left
    obtain ⟨b, at_q, kind', object', number'⟩ := right
    have nodup : (crossings obj (traces i)).Nodup := by
      by_cases mem : i ∈ threads
      · rw [turn.each i mem]
        exact rounds_nodup count
      · rw [turn.others i mem]
        exact .nil
    apply place_unique nodup at_p at_q (b := (.barrierArrive, k))
    · simp [kind, object, number]
    · simp [kind', object', number']
  · obtain ⟨a, at_p, kind, object, number⟩ := arrive
    by_contra stranger
    have mem : (a.kind, a.sequenceNo) ∈ crossings obj (traces i) :=
      List.mem_filterMap.mpr ⟨_, List.mem_of_getElem? at_p, by simp [kind, object]⟩
    rw [turn.others i stranger] at mem
    cases mem

/-- On a core with nothing in flight every arrival that the reader went past has retired. -/
theorem arrivals_drained {p : Pipeline} (order : p.InOrder) {done : List TraceRecord}
    (delivered : Log.delivered p.log = deliverables done)
    (drained : (Log.retired p.log).length = (Log.delivered p.log).length) (k : Nat) :
    arrivals p.log obj k = (crossings obj done).count (.barrierArrive, k) := by
  have tokens := order.retired_prefix.map (·.syncToken)
  rw [order.delivered, List.map_map] at tokens
  have same := tokens.eq_of_length (by simpa using drained)
  rw [arrivals, ← countP_arrives, ← delivered, ← same]
  rfl

/-- A thread that waits in the iteration has arrived in it and in all before it. -/
theorem InTurn.waiting_arrived (turn : InTurn traces obj threads count)
    (gathered : Gathered traces obj threads s) {i : Nat} (mem : i ∈ threads)
    (drained : (Log.retired (s.cores i).log).length = (Log.delivered (s.cores i).log).length)
    {k : Nat} (waits : Waits s obj i k) : k < count ∧ ∀ j ≤ k, 0 < arrivals (s.cores i).log obj j := by
  obtain ⟨l, held, kind, object, rfl, -⟩ := waits
  obtain ⟨done, split, delivered, -⟩ := gathered.follows i
  have whole := turn.each i mem
  rw [split, Reader.ahead, held] at whole
  simp only [Option.map_some, Option.toList_some, List.singleton_append] at whole
  rw [crossings_append, crossings_cons, show crossings obj [.sync l] = [(.barrierLeave, l.sequenceNo)] by
    simp [crossings, kind, object], List.singleton_append] at whole
  refine ⟨?_, fun j early => ?_⟩
  · have here : (SyncKind.barrierLeave, l.sequenceNo) ∈ rounds count := by
      rw [← whole]
      exact List.mem_append_right _ List.mem_cons_self
    exact (mem_rounds.mp here).2
  · have drains : arrivals (s.cores i).log obj j = (crossings obj done).count (.barrierArrive, j) :=
      arrivals_drained (gathered.order i) delivered drained j
    rw [drains]
    exact List.count_pos_iff.mpr (arrived_of_leaving whole.symm early)

/-- A thread that has no more to do at the barrier has arrived in all iterations. -/
theorem InTurn.finished_arrived (turn : InTurn traces obj threads count)
    (gathered : Gathered traces obj threads s) {i : Nat} (mem : i ∈ threads)
    (drained : (Log.retired (s.cores i).log).length = (Log.delivered (s.cores i).log).length)
    (finished : crossings obj (s.cores i).outside.reader.ahead = []) {k : Nat} (early : k < count) :
    0 < arrivals (s.cores i).log obj k := by
  obtain ⟨done, split, delivered, -⟩ := gathered.follows i
  have whole := turn.each i mem
  rw [split, crossings_append, finished, List.append_nil] at whole
  have drains : arrivals (s.cores i).log obj k = (crossings obj done).count (.barrierArrive, k) :=
    arrivals_drained (gathered.order i) delivered drained k
  rw [drains, whole]
  exact List.count_pos_iff.mpr (mem_rounds.mpr ⟨.inl rfl, early⟩)

/-- Of those that wait, one waits in the earliest iteration. In that one all have
    arrived, and its gate is open. -/
theorem barrier_never_deadlocks {numThreads : Nat} {cfg : Nat → OooConfig} {hardware : Nat → H.State}
    (turn : InTurn traces obj threads count)
    (run : (Threads.machine H).Reachable (Threads.start numThreads traces cfg hardware) s) :
    ¬Deadlocked s obj threads := by
  intro deadlocked
  have gathered := gathered_run turn.crossed run
  obtain ⟨i₀, mem₀, waited⟩ := deadlocked.waits
  have some : threads.card ≠ 0 := Finset.card_ne_zero_of_mem mem₀
  have tallied := tallied_run some turn.crossed run
  have exist : ∃ k, ∃ i ∈ threads, Waits s obj i k := by
    obtain ⟨k, waits⟩ := waited
    exact ⟨k, i₀, mem₀, waits⟩
  classical
  obtain ⟨i, mem, waits⟩ := Nat.find_spec exist
  have first : ∀ j ∈ threads, ∀ k, Waits s obj j k → Nat.find exist ≤ k := fun j mem k waits =>
    Nat.find_min' exist ⟨j, mem, waits⟩
  generalize Nat.find exist = k at waits first
  have inside := (turn.waiting_arrived gathered mem (deadlocked.drained i mem) waits).1
  have all : ∀ j ∈ threads, 1 ≤ arrivals (s.cores j).log obj k := by
    intro j mem
    have drained := deadlocked.drained j mem
    rcases deadlocked.stuck j mem with ⟨k', waits⟩ | finished
    · exact (turn.waiting_arrived gathered mem drained waits).2 k (first j mem k' waits)
    · exact turn.finished_arrived gathered mem drained finished inside
  obtain ⟨l, -, -, -, -, shut⟩ := waits
  have arrived : threads.card ≤ (s.coordinator.barriers obj k).arrived := by
    refine (Finset.card_nsmul_le_sum threads _ 1 all).trans' ?_ |>.trans (tallied.counted k)
    simp
  have known := tallied.known k (by omega)
  have expected := (gathered.expected k).resolve_left known
  exact shut ⟨known, by omega⟩

end

end Sync
