import MulticoreSim.Ooo.Pipeline

/-! # In-order retirement

Dispatch takes instructions in fetch order and the reorder buffer keeps them in
it, so that what has retired is always the beginning of what was fetched.
-/

namespace Ooo

/-- The instruction of a buffer entry, with its tag. -/
def RobEntry.key (entry : RobEntry) : Inst × Nat := (entry.inst, entry.destTag)

namespace Pipeline

/-- Retired, in the buffer, in the dispatch queue: the fetched instructions in
    order, numbered from one. -/
structure InOrder (p : Pipeline) : Prop where
  buffer : p.rob.Sound
  fetched : Log.fetched p.log = (Log.dispatched p.log).map (·.1) ++ p.dispq
  dispatched : Log.dispatched p.log = Log.retired p.log ++ p.rob.toList.map RobEntry.key
  numbered : (Log.fetched p.log).map (·.dynCount) = List.range' 1 p.dynCount
  fetchedCount : p.fetchedCount = p.dynCount
  retiredCount : p.retiredCount = (Log.retired p.log).length
  delivered : (Log.fetched p.log).map (·.syncToken) = (Log.delivered p.log).map (·.syncToken)

variable {p p' : Pipeline}

theorem InOrder.rob_head (inv : p.InOrder) (held : p.rob.count ≠ 0) :
    p.rob.toList = p.rob.headEntry :: p.rob.pop.toList := by
  rw [CircularBuffer.toList_pop (Nat.pos_of_ne_zero held), inv.buffer.slotAt_zero]
  rfl

/-- The head moves from the buffer to the retired. -/
theorem InOrder.head_retires (inv : p.InOrder) (held : p.rob.count ≠ 0) :
    Log.dispatched p.log = Log.retired p.log ++
      [(p.rob.headEntry.inst, p.rob.headEntry.destTag)] ++ p.rob.pop.toList.map RobEntry.key := by
  rw [inv.dispatched, inv.rob_head held, List.map_cons, List.append_assoc]
  rfl

theorem InOrder.step (inv : p.InOrder) (step : Step p p') : p'.InOrder := by
  cases step with
  | retire held | flush held =>
      refine ⟨inv.buffer.pop (Nat.pos_of_ne_zero held), ?_, ?_, ?_, inv.fetchedCount, ?_, ?_⟩
      · simpa using inv.fetched
      · simpa using inv.head_retires held
      · simpa using inv.numbered
      · simpa using inv.retiredCount
      · simpa using inv.delivered
  | @writeback tag sched pointers found held =>
      have before := inv.dispatched
      let done : RobEntry → RobEntry := fun entry => { entry with ready := true }
      have buffer := inv.buffer.modify sched.robIdx done
      have keys : (p.rob.modify sched.robIdx done).toList.map RobEntry.key =
          p.rob.toList.map RobEntry.key :=
        CircularBuffer.toList_map_modify (f := done) (g := RobEntry.key) (fun _ => rfl) _
      refine ⟨buffer, ?_, ?_, ?_, inv.fetchedCount, ?_, ?_⟩
      · simpa using inv.fetched
      · rw [← keys] at before
        simpa using before
      · simpa using inv.numbered
      · simpa using inv.retiredCount
      · simpa using inv.delivered
  | call | fire =>
      refine ⟨inv.buffer, ?_, ?_, ?_, inv.fetchedCount, ?_, ?_⟩
      · simpa using inv.fetched
      · simpa using inv.dispatched
      · simpa using inv.numbered
      · simpa using inv.retiredCount
      · simpa using inv.delivered
  | dispatch next schedqRoom robRoom =>
      refine ⟨inv.buffer.push robRoom _, ?_, ?_, ?_, inv.fetchedCount, ?_, ?_⟩
      · simpa [next] using inv.fetched
      · simp [CircularBuffer.toList_push inv.buffer robRoom, inv.dispatched, RobEntry.key]
      · simpa using inv.numbered
      · simpa using inv.retiredCount
      · simpa using inv.delivered
  | fetch room unblocked as =>
      refine ⟨inv.buffer, ?_, ?_, ?_, ?_, ?_, ?_⟩
      · simp [inv.fetched]
      · simpa using inv.dispatched
      · simp [inv.numbered, as.dynCount, List.range'_concat, Nat.add_comm]
      · simp [inv.fetchedCount]
      · simpa using inv.retiredCount
      · simp [inv.delivered, as.syncToken]

theorem InOrder.retired_prefix (inv : p.InOrder) :
    (Log.retired p.log).map (·.1) <+: Log.fetched p.log := by
  have order := inv.fetched
  rw [inv.dispatched, List.map_append, List.append_assoc] at order
  exact ⟨_, order.symm⟩

theorem InOrder.length_fetched (inv : p.InOrder) : (Log.fetched p.log).length = p.fetchedCount := by
  have length := congrArg List.length inv.numbered
  rw [List.length_map, List.length_range'] at length
  exact length.trans inv.fetchedCount.symm

theorem InOrder.fetched_numbers (inv : p.InOrder) :
    (Log.fetched p.log).map (·.dynCount) = List.range' 1 p.fetchedCount := by
  rw [inv.fetchedCount]
  exact inv.numbered

theorem InOrder.fetched_increasing (inv : p.InOrder) :
    (Log.fetched p.log).Pairwise fun a b => a.dynCount < b.dynCount := by
  have numbers : (List.range' 1 p.dynCount).Pairwise (· < ·) := List.pairwise_lt_range'
  rw [← inv.numbered] at numbers
  exact List.pairwise_map.mp numbers

/-- What is older than something fetched had been fetched before it. -/
theorem InOrder.fetched_before (inv : p.InOrder) {earlier later : List Event} {inst older : Inst}
    (split : p.log = earlier ++ later) (fetched : inst ∈ Log.fetched earlier)
    (mem : older ∈ Log.fetched p.log) (less : older.dynCount < inst.dynCount) :
    older ∈ Log.fetched earlier := by
  have all : Log.fetched p.log = Log.fetched earlier ++ Log.fetched later := by
    rw [split]
    exact List.filterMap_append ..
  have increasing := inv.fetched_increasing
  rw [all] at mem increasing
  rcases List.mem_append.mp mem with before | after
  · exact before
  · have younger := (List.pairwise_append.mp increasing).2.2 inst fetched older after
    exact absurd younger (Nat.lt_asymm less)

/-- A prefix of `1, 2, 3, …` is the one of its own length. -/
theorem InOrder.retired_numbers (inv : p.InOrder) :
    (Log.retired p.log).map (·.1.dynCount) = List.range' 1 p.retiredCount := by
  have numbers := inv.retired_prefix.map (·.dynCount)
  rw [inv.fetched_numbers, List.map_map] at numbers
  have take := List.prefix_iff_eq_take.mp numbers
  have short := numbers.length_le
  rw [List.length_map, List.length_range', ← inv.retiredCount] at short
  rw [List.length_map, ← inv.retiredCount, List.take_range'_of_length_ge short] at take
  exact take

/-- A mispredicted branch carries no sync token. -/
def Truthful (p : Pipeline) : Prop :=
  ∀ inst ∈ Log.fetched p.log, inst.mispredict = true → inst.syncToken = none

theorem Truthful.step (truthful : p.Truthful) (step : Step p p') : p'.Truthful := by
  cases step with
  | retire | flush | writeback | call | fire | dispatch => simpa [Truthful] using truthful
  | fetch room unblocked as =>
      intro inst mem mispredict
      rw [Log.fetched_snoc] at mem
      rcases List.mem_append.mp mem with before | new
      · exact truthful inst before mispredict
      · rw [List.mem_singleton.mp new] at mispredict ⊢
        exact as.plain mispredict

theorem InOrder.all_retired (inv : p.InOrder) (dispq : p.dispq = []) (rob : p.rob.count = 0) :
    (Log.retired p.log).map (·.1) = Log.fetched p.log := by
  have order := inv.fetched
  rw [inv.dispatched, CircularBuffer.toList_eq_nil.mpr rob, dispq] at order
  simpa using order.symm

end Pipeline

/-! ## Runs -/

variable {S : Surroundings} {cfg : OooConfig} {outside : S.State} {tid : Nat} {c : Core S}

theorem inOrder_run (run : (machine S).Reachable (Core.make cfg outside tid) c) : c.pipe.InOrder := by
  refine Core.pipe_invariant ?_ (fun _ _ inv step => inv.step step) run
  exact ⟨CircularBuffer.Sound.make .., rfl, by rfl, rfl, rfl, rfl, rfl⟩

namespace Core

/-- The stall count stands at the threshold, as in the cycles the watchdog fires in. -/
def Condemned (c : Core S) : Prop :=
  c.cfg.deadlockThresholdCycles ≠ 0 ∧ c.cfg.deadlockThresholdCycles ≤ c.stallCycles

theorem watchdog_fires_iff (c : Core S) : c.watchdog.1 = true ↔ c.watchdog.2.Condemned := by
  unfold watchdog Condemned
  split
  · next off => simp [off]
  · next on =>
      split
      · simp only
        split
        · next reached => simp [on, reached]
        · next below => simp [on, Nat.lt_of_not_le below]
      · simp

theorem tick_drained {c c' : Core S} (ran : c.tick = .ok (false, c')) (quiet : ¬c'.Condemned) :
    c'.drained = true := by
  obtain ⟨staged, -, rfl, more⟩ := tick_eq ran
  have unfired : staged.closeCycle.watchdog.1 = false := by
    by_contra fires
    exact quiet ((watchdog_fires_iff _).mp (by simpa using fires))
  simpa [unfired] using more

end Core

/-! ## What has retired -/

/-- The retired instructions are the first of the fetched ones, by number and one
    by one; a core that stops of itself has retired everything it was delivered. -/
theorem retires_in_order (run : (machine S).Reachable (Core.make cfg outside tid) c) :
    (Log.retired c.log).map (·.1) <+: Log.fetched c.log ∧
      (Log.retired c.log).map (·.1.dynCount) = List.range' 1 c.stats.instructionsRetired ∧
      (Log.fetched c.log).map (·.dynCount) = List.range' 1 c.stats.instructionsFetched ∧
      ∀ c', c.tick = .ok (false, c') → ¬c'.Condemned →
        (Log.retired c'.log).map (·.1) = Log.fetched c'.log ∧
          c'.stats.instructionsRetired = c'.stats.instructionsFetched ∧
          c'.stats.instructionsFetched = (Log.delivered c'.log).length := by
  have inv := inOrder_run run
  refine ⟨inv.retired_prefix, inv.retired_numbers, inv.fetched_numbers, fun c' ticked quiet => ?_⟩
  have inv := (Core.tick_runs ticked).keeps_pipe (fun _ _ inv step => inv.step step) inv
  have drained := Core.tick_drained ticked quiet
  simp only [Core.drained, Bool.and_eq_true, List.isEmpty_iff, CircularBuffer.empty, beq_iff_eq]
    at drained
  obtain ⟨⟨⟨-, dispq⟩, rob⟩, -⟩ := drained
  have all := inv.all_retired dispq rob
  refine ⟨all, ?_, ?_⟩
  · have length := congrArg List.length all
    rw [List.length_map] at length
    exact inv.retiredCount.trans (length.trans inv.length_fetched)
  · have length := congrArg List.length inv.delivered
    rw [List.length_map, List.length_map] at length
    exact inv.length_fetched.symm.trans length

/-- A reader over a list, a predictor that says "taken" and a cache that always hits. -/
def listed : Surroundings where
  State := List Record
  next
    | [] => .ok (none, [])
    | record :: rest => .ok (some record, rest)
  blocked _ := false
  notifyRetire records _ _ _ := .ok records
  predict records _ := (true, records)
  update records _ _ := records
  l1Full _ := false
  l1Ready _ _ := true
  l1Issue records _ := .ok (some 1, records)
  l1Complete records _ := records
  l1Tick records := records

/-- A mispredicted branch before a load, run up to the cycle that retires the load. -/
def branchThenLoad : Core listed :=
  (machine listed).attempt
    (Core.make {} [{ ip := 4, isBranch := true, sourceRegisters := [1] },
      { ip := 8, sourceMemory := [64], destinationRegisters := [2] }] 0)
    (List.replicate 9 .tick)

theorem branchThenLoad_retires : ∃ c', branchThenLoad.tick = .ok (false, c') ∧
    (Log.retired c'.log).map (·.1) = Log.fetched c'.log ∧ (Log.delivered c'.log).length = 2 := by
  have stops : branchThenLoad.tick.toOption.map (fun r =>
      (r.1, r.2.stallCycles, r.2.stats.instructionsFetched)) = some (false, 0, 2) := by
    decide +kernel
  obtain ⟨⟨more, c'⟩, ticked, known⟩ := exists_ok stops
  simp only [Prod.mk.injEq] at known
  obtain ⟨rfl, stall, two⟩ := known
  have quiet : ¬c'.Condemned := fun ⟨on, reached⟩ => on (by omega)
  obtain ⟨-, -, -, finished⟩ :=
    retires_in_order (machine listed |>.reachable_attempt _ (List.replicate 9 .tick))
  obtain ⟨all, -, delivered⟩ := finished c' ticked quiet
  exact ⟨c', ticked, all, delivered.symm.trans two⟩

end Ooo
