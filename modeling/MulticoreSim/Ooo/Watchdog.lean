import MulticoreSim.Ooo.Recovery
import MulticoreSim.Ooo.Utilization

/-! # The watchdog and finished cores

The watchdog compares what a core has retired, fetched and queued with the cycle
before. A finished core stands at the same numbers for ever, and the check comes
before the question whether there is work left: idling is counted as a stall.
-/

namespace Ooo

namespace Core

variable {S : Surroundings} {c c' : Core S}

/-- The cycle is one without progress, and the last that the threshold allows. -/
def Due (c : Core S) (sig : ProgressSig) : Prop :=
  c.cfg.deadlockThresholdCycles ≠ 0 ∧ c.lastProgressSig = some sig ∧
    c.cfg.deadlockThresholdCycles ≤ c.stallCycles + 1

instance (c : Core S) (sig : ProgressSig) : Decidable (c.Due sig) :=
  inferInstanceAs (Decidable (_ ∧ _))

/-- What the watchdog leaves behind, by the signature it saw. -/
structure Watched (before after : Core S) : Prop where
  cfg : after.cfg = before.cfg
  eof : after.eof = before.eof
  sig : after.progressSig = before.progressSig
  deadlocked : after.stats.deadlocked =
    (before.stats.deadlocked || decide (before.Due before.progressSig))
  stallCycles : before.cfg.deadlockThresholdCycles ≠ 0 →
    before.lastProgressSig = some before.progressSig → after.stallCycles = before.stallCycles + 1
  lastProgressSig : before.cfg.deadlockThresholdCycles ≠ 0 →
    after.lastProgressSig = some before.progressSig

theorem watchdog_watched (c : Core S) : Watched c c.watchdog.2 := by
  unfold watchdog
  split
  · next off => exact ⟨rfl, rfl, rfl, by simp [Due, off], fun on => absurd off on, fun on => absurd off on⟩
  · next on =>
      split
      · next same =>
          dsimp only
          split
          · next reached =>
              refine ⟨rfl, rfl, rfl, ?_, fun _ _ => rfl, fun _ => same⟩
              have due : c.Due c.progressSig := ⟨on, same, reached⟩
              simp [due]
          · next below =>
              refine ⟨rfl, rfl, rfl, ?_, fun _ _ => rfl, fun _ => same⟩
              have early : ¬c.Due c.progressSig := fun due => below due.2.2
              simp [early]
      · next moved =>
          refine ⟨rfl, rfl, rfl, ?_, fun _ same => absurd same moved, fun _ => rfl⟩
          have early : ¬c.Due c.progressSig := fun due => moved due.2.1
          simp [early]

/-- A tick flags the core in the cycle that the watchdog counts out, and in no other. -/
theorem tick_flags {more : Bool} (ran : c.tick = .ok (more, c')) :
    c'.stats.deadlocked = (c.stats.deadlocked || decide (c.Due c'.progressSig)) := by
  obtain ⟨staged, done, rfl, -⟩ := tick_eq ran
  obtain ⟨accounts, defers⟩ := stages_books done
  have watched := staged.closeCycle.watchdog_watched
  have deadlocked : staged.closeCycle.stats.deadlocked = c.stats.deadlocked := defers.deadlocked
  have due : staged.closeCycle.Due staged.closeCycle.progressSig ↔
      c.Due staged.closeCycle.watchdog.2.progressSig := by
    have cfg : staged.closeCycle.cfg = c.cfg := accounts.cfg
    have stall : staged.closeCycle.stallCycles = c.stallCycles := defers.stallCycles
    have last : staged.closeCycle.lastProgressSig = c.lastProgressSig := defers.lastProgressSig
    unfold Due
    rw [cfg, stall, last, watched.sig]
  rw [watched.deadlocked, deadlocked, decide_eq_decide.mpr due]

/-! ## Finished cores -/

/-- The parts of `drained`. -/
structure Finished (c : Core S) : Prop where
  eof : c.eof = true
  dispq : c.dispq = []
  rob : c.rob.count = 0
  sq : c.sq = []

theorem drained_iff : c.drained = true ↔ c.Finished := by
  simp only [drained, Bool.and_eq_true, List.isEmpty_iff, CircularBuffer.empty, beq_iff_eq]
  constructor
  · intro drained
    obtain ⟨⟨⟨eof, dispq⟩, rob⟩, sq⟩ := drained
    exact ⟨eof, dispq, rob, sq⟩
  · intro finished
    exact ⟨⟨⟨finished.eof, finished.dispq⟩, finished.rob⟩, finished.sq⟩

/-- A cycle of a finished core writes its counters only. -/
theorem stages_finished (steady : Steady c) (finished : c.Finished) :
    ∃ stats, c.stages = .ok { c with stats } ∧ progressSig { c with stats } = c.progressSig := by
  have updated : c.stageStateUpdate = .ok (false, { c with stats := creditRetire 0 true false c.stats }) := by
    simp [stageStateUpdate, finished.rob, retireLoop, CircularBuffer.empty]
  generalize credited : creditRetire 0 true false c.stats = stats at updated
  have idle := steady.idle finished.sq
  have exec : stageExec { c with stats } = .ok { c with stats } := stageExec_idle idle
  have schedule : stageSchedule { c with stats } = .ok { c with stats } := stageSchedule_idle finished.sq
  have dispatch : stageDispatch { c with stats } = { c with stats } := stageDispatch_idle finished.dispq
  have staged : c.stages = stageFetch { c with stats } := by
    simp [stages, updated, exec, schedule, dispatch, Bind.bind, Except.bind]
  rw [staged]
  subst credited
  unfold stageFetch
  split
  · exact ⟨_, rfl, rfl⟩
  · rw [if_pos (show Core.eof _ = true from finished.eof)]
    exact ⟨_, rfl, rfl⟩

/-- The core has been watched since its trace ended. -/
def Marked (c : Core S) : Prop :=
  c.cfg.deadlockThresholdCycles ≠ 0 → c.eof = true → c.lastProgressSig = some c.progressSig

theorem tick_marked {more : Bool} (ran : c.tick = .ok (more, c')) : Marked c' := by
  obtain ⟨staged, -, rfl, -⟩ := tick_eq ran
  have watched := staged.closeCycle.watchdog_watched
  intro on _
  rw [watched.cfg] at on
  rw [watched.lastProgressSig on, watched.sig]

/-- One idle cycle. -/
structure Idles (before after : Core S) : Prop where
  cfg : after.cfg = before.cfg
  stallCycles : before.cfg.deadlockThresholdCycles ≠ 0 → after.stallCycles = before.stallCycles + 1
  deadlocked : after.stats.deadlocked = (before.stats.deadlocked ||
    decide (before.cfg.deadlockThresholdCycles ≠ 0 ∧
      before.cfg.deadlockThresholdCycles ≤ before.stallCycles + 1))

theorem tick_finished (steady : Steady c) (marked : Marked c) (finished : c.Finished) :
    ∃ more c', c.tick = .ok (more, c') ∧ c'.Finished ∧ Idles c c' := by
  obtain ⟨stats, staged, sig⟩ := stages_finished steady finished
  have sig : progressSig (closeCycle { c with stats }) = c.progressSig := sig
  have watched := watchdog_watched (closeCycle { c with stats })
  have ran : c.tick = .ok (!(closeCycle { c with stats }).watchdog.1 &&
      !(closeCycle { c with stats }).watchdog.2.drained, (closeCycle { c with stats }).watchdog.2) := by
    simp [tick, staged, Bind.bind, Except.bind]
  have pipe := watchdog_view (closeCycle { c with stats })
  have flags := tick_flags ran
  refine ⟨_, _, ran, ⟨?_, ?_, ?_, ?_⟩, ⟨watched.cfg, fun on => ?_, ?_⟩⟩
  · exact watched.eof.trans finished.eof
  · exact (congrArg (fun v => v.2.dispq) pipe).trans finished.dispq
  · exact (congrArg (fun v => v.2.rob.count) pipe).trans finished.rob
  · exact (congrArg (fun v => v.2.sq) pipe).trans finished.sq
  · exact watched.stallCycles on ((marked on finished.eof).trans (congrArg some sig.symm))
  · rw [flags, watched.sig, sig]
    congr 1
    apply decide_eq_decide.mpr
    exact ⟨fun due => ⟨due.1, due.2.2⟩, fun due => ⟨due.1, marked due.1 finished.eof, due.2⟩⟩

end Core

/-! ## Runs -/

variable {S : Surroundings} {cfg : OooConfig} {outside : S.State} {tid : Nat} {c : Core S}

theorem marked_run (run : (machine S).Reachable (Core.make cfg outside tid) c) : c.Marked := by
  refine run.invariant (fun _ => nofun) fun c action c' marked _ stepped => ?_
  cases action with
  | tick =>
      simp only [machine, Except.map] at stepped
      split at stepped
      · cases stepped
      · next ticked =>
          cases stepped
          exact Core.tick_marked ticked
  | outside state =>
      cases stepped
      exact marked

/-- How many of the actions are cycles. -/
def ticks : List (Action S) → Nat
  | [] => 0
  | .tick :: rest => ticks rest + 1
  | .outside _ :: rest => ticks rest

@[simp] theorem ticks_replicate (n : Nat) : ticks (List.replicate n (.tick : Action S)) = n := by
  induction n with
  | zero => rfl
  | succ n ih => simp [List.replicate_succ, ticks, ih]

/-- A finished core stays finished, and is flagged once its idle cycles reach the threshold. -/
theorem Core.Finished.idles (actions : List (Action S)) (steady : c.Steady) (marked : c.Marked)
    (finished : c.Finished) : ∃ c', (machine S).exec c actions = .ok c' ∧ c'.Finished ∧
      (c'.stats.deadlocked = true ↔ c.stats.deadlocked = true ∨
        c.cfg.deadlockThresholdCycles ≠ 0 ∧ 0 < ticks actions ∧
          c.cfg.deadlockThresholdCycles ≤ c.stallCycles + ticks actions) := by
  induction actions generalizing c with
  | nil => exact ⟨c, rfl, finished, by simp [ticks]⟩
  | cons action rest ih =>
      cases action with
      | tick =>
          obtain ⟨more, next, ran, still, idles⟩ := Core.tick_finished steady marked finished
          obtain ⟨c', executed, done, flagged⟩ := ih (Core.tick_steady steady ran) (Core.tick_marked ran) still
          refine ⟨c', ?_, done, flagged.trans ?_⟩
          · simp only [Machine.exec, machine, ran, Except.map]
            exact executed
          · rw [idles.deadlocked, idles.cfg, ticks]
            simp only [Bool.or_eq_true, decide_eq_true_eq]
            by_cases on : c.cfg.deadlockThresholdCycles = 0
            · simp [on]
            · rw [idles.stallCycles on]
              cases c.stats.deadlocked with
              | true => simp
              | false =>
                  simp only [Bool.false_eq_true, false_or]
                  omega
      | outside state =>
          have steady' : Core.Steady { c with outside := state } :=
            ⟨steady.sound, steady.held, steady.loadStore⟩
          obtain ⟨c', executed, done, flagged⟩ := ih steady' marked
            ⟨finished.eof, finished.dispq, finished.rob, finished.sq⟩
          exact ⟨c', executed, done, flagged⟩

/-- Idle cycles leave the flag of a finished core alone as long as the watchdog is off or
    has not counted them out; the cycle that finishes a core, as long as it made progress
    or the watchdog had cycles left. -/
theorem finished_core_flagged (run : (machine S).Reachable (Core.make cfg outside tid) c) :
    (c.drained = true → ∀ actions, ∃ c', (machine S).exec c actions = .ok c' ∧ c'.drained = true ∧
      (c'.stats.deadlocked = c.stats.deadlocked ↔ c.stats.deadlocked = true ∨
        c.cfg.deadlockThresholdCycles = 0 ∨ ticks actions = 0 ∨
          c.stallCycles + ticks actions < c.cfg.deadlockThresholdCycles)) ∧
    ∀ more c', c.tick = .ok (more, c') → c'.drained = true →
      (c'.stats.deadlocked = c.stats.deadlocked ↔ c.stats.deadlocked = true ∨
        c.cfg.deadlockThresholdCycles = 0 ∨ c.lastProgressSig ≠ some c'.progressSig ∨
          c.stallCycles + 1 < c.cfg.deadlockThresholdCycles) := by
  refine ⟨fun drained actions => ?_, fun more c' ran _ => ?_⟩
  · obtain ⟨c', executed, finished, flagged⟩ := (Core.drained_iff.mp drained).idles
      actions (steady_run run) (marked_run run)
    refine ⟨c', executed, Core.drained_iff.mpr finished, ?_⟩
    rw [Bool.eq_iff_iff, flagged]
    cases c.stats.deadlocked with
    | true => simp
    | false =>
        simp only [Bool.false_eq_true, false_or, iff_false]
        omega
  · rw [Core.tick_flags ran]
    cases c.stats.deadlocked with
    | true => simp
    | false =>
        simp only [Bool.false_or, decide_eq_false_iff_not, Bool.false_eq_true, false_or]
        unfold Core.Due
        rw [not_and_or, not_and_or, not_not, Nat.not_le]

/-- A core without a trace, under the threshold that the full mode sets, after its first
    cycle. -/
def emptyTrace : Core listed :=
  (machine listed).attempt (Core.make { deadlockThresholdCycles := 1000000 } [] 0) [.tick]

/-- It idles unflagged for one cycle less than the threshold. -/
theorem emptyTrace_spared : ∃ c',
    (machine listed).exec emptyTrace (List.replicate 999999 .tick) = .ok c' ∧
      c'.stats.deadlocked = false := by
  obtain ⟨c', executed, -, same⟩ :=
    (finished_core_flagged (machine listed |>.reachable_attempt _ [.tick] :
      (machine listed).Reachable _ emptyTrace)).1 (by decide +kernel) (List.replicate 999999 .tick)
  have early : emptyTrace.stallCycles + 999999 < emptyTrace.cfg.deadlockThresholdCycles := by
    decide +kernel
  refine ⟨c', executed, (same.mpr ?_).trans (by decide +kernel)⟩
  rw [ticks_replicate]
  exact .inr (.inr (.inr early))

/-- One more cycle condemns it. -/
theorem emptyTrace_condemned :
    (machine listed).Reachable (Core.make { deadlockThresholdCycles := 1000000 } [] 0) emptyTrace ∧
      emptyTrace.drained = true ∧ emptyTrace.stats.deadlocked = false ∧
      ∃ c', (machine listed).exec emptyTrace (List.replicate 1000000 .tick) = .ok c' ∧
        c'.drained = true ∧ c'.stats.deadlocked = true := by
  have run : (machine listed).Reachable (Core.make { deadlockThresholdCycles := 1000000 } [] 0) emptyTrace :=
    Machine.reachable_attempt _ _
  have drained : emptyTrace.drained = true := by decide +kernel
  have threshold : emptyTrace.cfg.deadlockThresholdCycles = 1000000 := by decide +kernel
  obtain ⟨c', executed, finished, flagged⟩ := (Core.drained_iff.mp drained).idles
    (List.replicate 1000000 .tick) (steady_run run) (marked_run run)
  refine ⟨run, drained, by decide +kernel, c', executed, Core.drained_iff.mpr finished, flagged.mpr (.inr ?_)⟩
  rw [ticks_replicate, threshold]
  omega

end Ooo
