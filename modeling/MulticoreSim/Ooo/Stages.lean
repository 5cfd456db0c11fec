import MulticoreSim.Ooo.MemoryOrder

/-! # Rules for the stages

What every turn of a stage's loops keeps, the stage keeps, and a cycle keeps what its
stages keep. An invariant of the core is proved from the turns alone; a relation to
an earlier core is an invariant of the later one.
-/

namespace Ooo

/-! ## Rows of one step -/

theorem Pipeline.Step.log {p p' : Pipeline} (step : Step p p') : ∃ event, p'.log = p.log ++ [event] := by
  cases step <;> exact ⟨_, rfl⟩

section

variable {S : Surroundings} {v v' : S.State × Pipeline}

/-- A row without a step writes nothing to the history. -/
theorem Runs.idle_or_longer (runs : Runs S v v') : v'.2 = v.2 ∨ v.2.log.length < v'.2.log.length := by
  induction runs with
  | refl => exact .inl rfl
  | tail _ last ih =>
      rcases last.step with same | step
      · rw [same]
        exact ih
      · obtain ⟨event, log⟩ := step.log
        right
        rw [log, List.length_append, List.length_singleton]
        rcases ih with same | longer
        · rw [same]
          exact Nat.lt_succ_self _
        · exact Nat.lt_succ_of_lt longer

/-- A row with one entry in the history has one step. -/
theorem Runs.step_of_one {event : Event} (runs : Runs S v v') (log : v'.2.log = v.2.log ++ [event]) :
    Pipeline.Step v.2 v'.2 := by
  have one : v'.2.log.length = v.2.log.length + 1 := by simp [log]
  clear log
  induction runs with
  | refl => omega
  | tail before last ih =>
      rcases last.step with same | step
      · rw [same] at one ⊢
        exact ih one
      · obtain ⟨event, log⟩ := step.log
        rw [log, List.length_append, List.length_singleton] at one
        rcases Runs.idle_or_longer before with same | longer
        · rwa [same] at step
        · omega

end

/-- The same counts of fetched and retired instructions. -/
structure OooStats.Counts (stats stats' : OooStats) : Prop where
  fetched : stats.instructionsFetched = stats'.instructionsFetched
  retired : stats.instructionsRetired = stats'.instructionsRetired

namespace Core

variable {S : Surroundings} {I : Core S → Prop} {c c' : Core S}

/-! ## Retire -/

/-- A turn of the loop finds a ready head. -/
theorem retireLoop_keeps {turns retired : Nat} {mispred : Bool}
    (each : ∀ {c c' : Core S} {mispred : Bool}, I c → c.rob.count ≠ 0 → c.rob.headEntry.ready = true →
      c.retireStep = .ok (mispred, c') → I c')
    (inv : I c) (ran : retireLoop turns c = .ok (retired, mispred, c')) : I c' := by
  induction turns generalizing c retired with
  | zero =>
      cases ran
      exact inv
  | succ turns ih =>
      simp only [retireLoop] at ran
      split at ran
      · cases ran
        exact inv
      · next more =>
          have held : c.rob.count ≠ 0 := by
            intro none
            simp [CircularBuffer.empty, none] at more
          have ready : c.rob.headEntry.ready = true := by
            by_contra unready
            simp [unready] at more
          split at ran
          · cases ran
          · next stepped =>
              cases ran
              exact each inv held ready stepped
          · next stepped =>
              split at ran
              · cases ran
              · next looped =>
                  cases ran
                  exact ih (each inv held ready stepped) looped

theorem creditRetire_counts (retired : Nat) (empty unready : Bool) (stats : OooStats) :
    (creditRetire retired empty unready stats).Counts stats := by
  unfold creditRetire
  repeat' split
  all_goals exact ⟨rfl, rfl⟩

/-! ## Exec -/

/-- What the completions of a cycle keep, unit by unit. -/
structure Completes (I : Core S → Prop) : Prop where
  alu : ∀ {c c' : Core S} {unit tag : Nat}, I c → c.units.alu[unit]? = some (some tag) →
    c.writeback tag = .ok c' →
    I { c' with units := { c'.units with alu := c'.units.alu.set unit none } }
  mul : ∀ {c c' : Core S} {unit tag : Nat} {stage1 stage2 : Option Nat}, I c →
    c.units.mul[unit]? = some { stage1, stage2, stage3 := some tag } → c.writeback tag = .ok c' →
    I { c' with
      units := { c'.units with mul := c'.units.mul.set unit { stage1, stage2, stage3 := none } } }
  shift : ∀ {c : Core S}, I c → (∀ u ∈ c.units.mul, u.stage3 = none) → I c.shiftMul
  lsu : ∀ {c c' : Core S} {unit : Nat} {u : LsuUnit}, I c → c.units.lsu[unit]? = some (some u) →
    S.l1Ready c.outside u.mshrId = true → c.writeback u.sched = .ok c' →
    I { c' with
      outside := S.l1Complete c'.outside u.mshrId
      units := { c'.units with lsu := c'.units.lsu.set unit none } }

namespace Completes

variable (keeps : Completes I) {unit : Nat}

include keeps

theorem completeAlu (inv : I c) (ran : c.completeAlu unit = .ok c') : I c' := by
  simp only [Core.completeAlu] at ran
  split at ran
  · next here =>
      split at ran
      · cases ran
      · next wrote =>
          cases ran
          exact keeps.alu inv here wrote
  · cases ran
    exact inv

theorem completeMul (inv : I c) (ran : c.completeMul unit = .ok c') : I c' := by
  simp only [Core.completeMul] at ran
  split at ran
  · next here =>
      split at ran
      · cases ran
      · next wrote =>
          cases ran
          exact keeps.mul inv here wrote
  · cases ran
    exact inv

theorem pollLsu (inv : I c) (ran : c.pollLsu unit = .ok c') : I c' := by
  simp only [Core.pollLsu] at ran
  split at ran
  · next here =>
      split at ran
      · next answered =>
          split at ran
          · cases ran
          · next wrote =>
              cases ran
              exact keeps.lsu inv here answered wrote
      · cases ran
        exact inv
  · cases ran
    exact inv

theorem stageExec (inv : I c) (ran : c.stageExec = .ok c') : I c' := by
  simp only [Core.stageExec, Bind.bind, Except.bind] at ran
  split at ran
  · cases ran
  · next aluDone =>
      have alu := overUnits_keeps (fun _ _ _ => keeps.completeAlu) inv aluDone
      split at ran
      · cases ran
      · next mulDone =>
          have mul := overUnits_keeps (fun _ _ _ => keeps.completeMul) alu mulDone
          exact overUnits_keeps (fun _ _ _ => keeps.pollLsu) (keeps.shift mul (mul_cleared mulDone)) ran

end Completes

/-! ## Schedule -/

/-- What the placements of a cycle keep, one by one. -/
structure Fires (I : Core S → Prop) : Prop where
  alu : ∀ {c : Core S} {oldest : SchedEntry}, I c → oldest ∈ c.sq → oldest.canFire = true →
    oldest.inst.opcode.isMem = false → c.units.alu.any (·.isNone) = true →
    I { c with
      units := { c.units with
        alu := Memory.modifyFirst (·.isNone) (fun _ => some oldest.destTag) c.units.alu }
      sq := markBusy c.sq oldest.destTag
      log := c.log ++ [.fired oldest.inst] }
  mul : ∀ {c : Core S} {oldest : SchedEntry}, I c → oldest ∈ c.sq → oldest.canFire = true →
    oldest.inst.opcode.isMem = false → c.units.mul.any (·.stage1.isNone) = true →
    I { c with
      units := { c.units with
        mul := Memory.modifyFirst (·.stage1.isNone) (fun u => { u with stage1 := some oldest.destTag })
          c.units.mul }
      sq := markBusy c.sq oldest.destTag
      log := c.log ++ [.fired oldest.inst] }
  /-- The cache takes no request. -/
  turnedAway : ∀ {c : Core S} {oldest : SchedEntry} {outside : S.State}, I c → Picked c oldest →
    S.l1Issue c.outside (c.memReq oldest.inst) = .ok (none, outside) →
    I { c with outside, log := c.log ++ [.called oldest.inst] }
  lsu : ∀ {c : Core S} {oldest : SchedEntry} {mshrId : Nat} {outside : S.State}, I c →
    Picked c oldest → c.units.lsu.any (·.isNone) = true →
    S.l1Issue c.outside (c.memReq oldest.inst) = .ok (some mshrId, outside) →
    I { c with
      outside
      units := { c.units with
        lsu := Memory.modifyFirst (·.isNone)
          (fun _ => some { isLoad := oldest.inst.opcode = .load, mshrId, sched := oldest.destTag })
          c.units.lsu }
      sq := markBusy c.sq oldest.destTag
      log := c.log ++ [.called oldest.inst] ++ [.fired oldest.inst] }

theorem fireInto_keeps {runs : Opcode → Bool} {free : Units → Bool} {place : Units → Nat → Units}
    {avail : Nat} (each : ∀ {c : Core S} {oldest : SchedEntry}, I c → oldest ∈ c.sq →
      oldest.canFire = true → runs oldest.inst.opcode = true → free c.units = true →
      I { c with
        units := place c.units oldest.destTag
        sq := markBusy c.sq oldest.destTag
        log := c.log ++ [.fired oldest.inst] })
    (inv : I c) : I (fireInto runs free place avail c) := by
  induction avail generalizing c with
  | zero => exact inv
  | succ avail ih =>
      unfold fireInto
      split
      · exact inv
      · next oldest picked =>
          obtain ⟨queued, canFire, op⟩ := pickOldest_spec picked
          split
          · next isFree => exact ih (each inv queued canFire op isFree)
          · exact ih inv

namespace Fires

variable (keeps : Fires I)

include keeps

theorem fireAlu (inv : I c) : I c.fireAlu := by
  apply fireInto_keeps _ inv
  intro c oldest inv queued canFire runs isFree
  refine keeps.alu inv queued canFire ?_ isFree
  cases op : oldest.inst.opcode <;> simp [op, Opcode.isMem] at runs ⊢

theorem fireMul (inv : I c) : I c.fireMul := by
  apply fireInto_keeps _ inv
  intro c oldest inv queued canFire runs isFree
  refine keeps.mul inv queued canFire ?_ isFree
  cases op : oldest.inst.opcode <;> simp [op, Opcode.isMem] at runs ⊢

theorem fireLsuLoop {avail : Nat} {storeFired : Bool} (inv : I c)
    (ran : fireLsuLoop avail storeFired c = .ok c') : I c' := by
  induction avail generalizing c storeFired with
  | zero =>
      cases ran
      exact inv
  | succ avail ih =>
      simp only [Core.fireLsuLoop] at ran
      split at ran
      · cases ran
        exact inv
      · next oldest picked =>
          split at ran
          · cases ran
            exact inv
          · split at ran
            · cases ran
              exact inv
            · split at ran
              · exact ih inv ran
              · next isFree =>
                  split at ran
                  · cases ran
                  · next issued =>
                      cases ran
                      exact keeps.turnedAway inv (picked_of picked) issued
                  · next issued =>
                      exact ih (keeps.lsu inv (picked_of picked) (by simpa using isFree) issued) ran

theorem stageSchedule (inv : I c) (ran : c.stageSchedule = .ok c') : I c' :=
  keeps.fireLsuLoop (keeps.fireMul (keeps.fireAlu inv)) ran

end Fires

/-! ## Dispatch and fetch -/

theorem dispatchLoop_keeps {width : Nat}
    (each : ∀ {c : Core S} {inst : Inst} {rest : List Inst}, I c → c.dispq = inst :: rest →
      ¬(c.sq.length ≥ c.cfg.schedqCapacity ∨ c.rob.full = true) → I (c.dispatchOne inst rest))
    (inv : I c) : I (dispatchLoop width c) := by
  induction width generalizing c with
  | zero => exact inv
  | succ width ih =>
      unfold dispatchLoop
      split
      · exact inv
      · next queued =>
          split
          · exact inv
          · next room => exact ih (each inv queued room)

/-- What the turns of the fetch loop keep. -/
structure Delivers (I : Core S → Prop) : Prop where
  /-- The reader has nothing to deliver. -/
  starved : ∀ {c : Core S} {outside : S.State}, I c → S.next c.outside = .ok (none, outside) →
    I { c with outside }
  ended : ∀ {c : Core S} {outside : S.State}, I c → S.next c.outside = .ok (none, outside) →
    S.blocked outside = false → I { c with outside, eof := true }
  delivered : ∀ {c : Core S} {rec : Record} {outside : S.State}, I c →
    c.dispq.length < c.cfg.dispqCapacity → c.inMispred = false →
    S.next c.outside = .ok (some rec, outside) → I (c.fetchOne rec outside)

theorem Delivers.fetchLoop (keeps : Delivers I) {width : Nat} {fetched : Bool} {stall : Option FetchStall}
    (inv : I c) (unblocked : c.inMispred = false)
    (ran : fetchLoop width fetched c = .ok (stall, c')) : I c' := by
  induction width generalizing c fetched with
  | zero =>
      cases ran
      exact inv
  | succ width ih =>
      simp only [Core.fetchLoop] at ran
      split at ran
      · cases ran
        exact inv
      · next room =>
          split at ran
          · cases ran
          · next none =>
              split at ran
              · cases ran
                exact keeps.starved inv none
              · next free =>
                cases ran
                exact keeps.ended inv none (by simpa using free)
          · next delivered =>
              have next := keeps.delivered inv (Nat.lt_of_not_le room) unblocked delivered
              split at ran
              · cases ran
                exact next
              · next again => exact ih next (by simpa using again) ran

theorem creditFetch_counts (stall : Option FetchStall) (stats : OooStats) :
    (creditFetch stall stats).Counts stats := by
  rcases stall with _ | stall
  · exact ⟨rfl, rfl⟩
  · cases stall <;> exact ⟨rfl, rfl⟩

theorem Delivers.stageFetch (keeps : Delivers I)
    (stats : ∀ {c : Core S} {stats : OooStats}, I c → stats.Counts c.stats → I { c with stats })
    (inv : I c) (ran : c.stageFetch = .ok c') : I c' := by
  simp only [Core.stageFetch] at ran
  split at ran
  · cases ran
    exact stats inv ⟨rfl, rfl⟩
  · next unblocked =>
      split at ran
      · cases ran
        exact stats inv ⟨rfl, rfl⟩
      · split at ran
        · cases ran
        · next looped =>
            cases ran
            have fetched := keeps.fetchLoop inv (by simpa using unblocked) looped
            exact stats fetched (creditFetch_counts ..)

/-! ## One cycle -/

/-- A cycle ends behind a mispredicted retire, or runs all its stages. -/
theorem stages_eq (ran : c.stages = .ok c') : ∃ mispred c₁, c.stageStateUpdate = .ok (mispred, c₁) ∧
    (mispred = true ∧ c' = { c₁ with
        stats := { c₁.stats with branchMispredictions := c₁.stats.branchMispredictions + 1 } } ∨
      mispred = false ∧ ∃ c₂ c₃, c₁.stageExec = .ok c₂ ∧ c₂.stageSchedule = .ok c₃ ∧
        c₃.stageDispatch.stageFetch = .ok c') := by
  simp only [stages, Bind.bind, Except.bind] at ran
  split at ran
  · cases ran
  · next retired =>
      refine ⟨_, _, retired, ?_⟩
      split at ran
      · next mispred =>
          cases ran
          exact .inl ⟨mispred, rfl⟩
      · next predicted =>
          split at ran
          · cases ran
          · next executed =>
              split at ran
              · cases ran
              · next scheduled =>
                  exact .inr ⟨by simpa using predicted, _, _, executed, scheduled, ran⟩

/-- What every turn of a cycle keeps. -/
structure Turns (I : Core S → Prop) : Prop where
  retire : ∀ {c c' : Core S} {mispred : Bool}, I c → c.rob.count ≠ 0 → c.rob.headEntry.ready = true →
    c.retireStep = .ok (mispred, c') → I c'
  completes : Completes I
  fires : Fires I
  dispatch : ∀ {c : Core S} {inst : Inst} {rest : List Inst}, I c → c.dispq = inst :: rest →
    ¬(c.sq.length ≥ c.cfg.schedqCapacity ∨ c.rob.full = true) → I (c.dispatchOne inst rest)
  delivers : Delivers I
  ticks : ∀ {c : Core S}, I c → I { c with outside := S.l1Tick c.outside }
  /-- The other counters and the watchdog's memory are free. -/
  counts : ∀ {c : Core S} {stats : OooStats} (stallCycles : Nat) (lastProgressSig : Option ProgressSig),
    I c → stats.Counts c.stats → I { c with stats, stallCycles, lastProgressSig }

namespace Turns

variable (keeps : Turns I)

include keeps

theorem stats {stats : OooStats} (inv : I c) (same : stats.Counts c.stats) : I { c with stats } :=
  keeps.counts c.stallCycles c.lastProgressSig inv same

theorem stageStateUpdate {mispred : Bool} (inv : I c) (ran : c.stageStateUpdate = .ok (mispred, c')) :
    I c' := by
  simp only [Core.stageStateUpdate] at ran
  split at ran
  · cases ran
  · next looped =>
      cases ran
      exact keeps.stats (retireLoop_keeps keeps.retire inv looped) (creditRetire_counts ..)

theorem stages (inv : I c) (ran : c.stages = .ok c') : I c' := by
  obtain ⟨mispred, c₁, retired, ⟨-, rfl⟩ | ⟨-, c₂, c₃, executed, scheduled, fetched⟩⟩ := stages_eq ran
  all_goals have updated := keeps.stageStateUpdate inv retired
  · exact keeps.stats updated ⟨rfl, rfl⟩
  · have fired := keeps.fires.stageSchedule (keeps.completes.stageExec updated executed) scheduled
    have dispatched : I c₃.stageDispatch := dispatchLoop_keeps keeps.dispatch fired
    exact keeps.delivers.stageFetch keeps.stats dispatched fetched

theorem watchdog (inv : I c) : I c.watchdog.2 := by
  simp only [Core.watchdog]
  split
  · exact inv
  · split
    · split <;> exact keeps.counts _ _ inv ⟨rfl, rfl⟩
    · exact keeps.counts 0 _ inv ⟨rfl, rfl⟩

theorem tick {more : Bool} (inv : I c) (ran : c.tick = .ok (more, c')) : I c' := by
  obtain ⟨staged, done, rfl, -⟩ := tick_eq ran
  exact keeps.watchdog (keeps.stats (keeps.ticks (keeps.stages inv done)) ⟨rfl, rfl⟩)

end Turns

theorem turns_true : Turns fun _ : Core S => True where
  retire _ _ _ _ := trivial
  completes := ⟨fun _ _ _ => trivial, fun _ _ _ => trivial, fun _ _ => trivial, fun _ _ _ _ => trivial⟩
  fires := ⟨fun _ _ _ _ _ => trivial, fun _ _ _ _ _ => trivial, fun _ _ _ => trivial,
    fun _ _ _ _ => trivial⟩
  dispatch _ _ _ := trivial
  delivers := ⟨fun _ _ => trivial, fun _ _ _ => trivial, fun _ _ _ _ => trivial⟩
  ticks _ := trivial
  counts _ _ _ _ := trivial

theorem Turns.and {I J : Core S → Prop} (first : Turns I) (second : Turns J) :
    Turns fun c => I c ∧ J c where
  retire inv held ready ran := ⟨first.retire inv.1 held ready ran, second.retire inv.2 held ready ran⟩
  completes :=
    { alu := fun inv here wrote =>
        ⟨first.completes.alu inv.1 here wrote, second.completes.alu inv.2 here wrote⟩
      mul := fun inv here wrote =>
        ⟨first.completes.mul inv.1 here wrote, second.completes.mul inv.2 here wrote⟩
      shift := fun inv clear => ⟨first.completes.shift inv.1 clear, second.completes.shift inv.2 clear⟩
      lsu := fun inv here answered wrote =>
        ⟨first.completes.lsu inv.1 here answered wrote, second.completes.lsu inv.2 here answered wrote⟩ }
  fires :=
    { alu := fun inv queued canFire other isFree =>
        ⟨first.fires.alu inv.1 queued canFire other isFree,
          second.fires.alu inv.2 queued canFire other isFree⟩
      mul := fun inv queued canFire other isFree =>
        ⟨first.fires.mul inv.1 queued canFire other isFree,
          second.fires.mul inv.2 queued canFire other isFree⟩
      turnedAway := fun inv picked issued =>
        ⟨first.fires.turnedAway inv.1 picked issued, second.fires.turnedAway inv.2 picked issued⟩
      lsu := fun inv picked isFree issued =>
        ⟨first.fires.lsu inv.1 picked isFree issued, second.fires.lsu inv.2 picked isFree issued⟩ }
  dispatch inv next room := ⟨first.dispatch inv.1 next room, second.dispatch inv.2 next room⟩
  delivers :=
    { starved := fun inv none =>
        ⟨first.delivers.starved inv.1 none, second.delivers.starved inv.2 none⟩
      ended := fun inv none free =>
        ⟨first.delivers.ended inv.1 none free, second.delivers.ended inv.2 none free⟩
      delivered := fun inv room unblocked delivered =>
        ⟨first.delivers.delivered inv.1 room unblocked delivered,
          second.delivers.delivered inv.2 room unblocked delivered⟩ }
  ticks inv := ⟨first.ticks inv.1, second.ticks inv.2⟩
  counts stall sig inv same := ⟨first.counts stall sig inv.1 same, second.counts stall sig inv.2 same⟩

/-! ## Turns as steps of the pipeline -/

theorem retireStep_log {mispred : Bool} (ran : c.retireStep = .ok (mispred, c')) :
    c'.log = c.log ++ [.retired c.rob.headEntry.inst c.rob.headEntry.destTag] := by
  have trained := congrArg Pipeline.log (c.trainPredictor_pipe c.rob.headEntry.inst)
  have rob : (c.trainPredictor c.rob.headEntry.inst).rob = c.rob :=
    congrArg Pipeline.rob (c.trainPredictor_pipe c.rob.headEntry.inst)
  simp only [retireStep] at ran
  split at ran
  · cases ran
    simpa [view, pipe, retireHead, rob] using trained
  · split at ran
    · cases ran
      simpa [view, pipe, retireHead, rob] using trained
    · split at ran
      · cases ran
      · cases ran
        simpa [view, pipe, retireHead, rob] using trained

theorem step_of_retireStep {mispred : Bool} (held : c.rob.count ≠ 0)
    (ready : c.rob.headEntry.ready = true) (ran : c.retireStep = .ok (mispred, c')) :
    Pipeline.Step c.pipe c'.pipe :=
  (retireStep_runs held ready ran).step_of_one (retireStep_log ran)

/-- An invariant of the pipeline's steps out of steady states is kept by the turns. -/
theorem turns_of_steps {J : Pipeline → Prop}
    (step : ∀ {c : Core S} {p : Pipeline}, c.Steady → J c.pipe → Pipeline.Step c.pipe p → J p) :
    Turns fun c : Core S => c.Steady ∧ J c.pipe where
  retire := by
    rintro c c' mispred ⟨steady, inv⟩ held ready ran
    have runs := retireStep_runs held ready ran
    obtain ⟨sq, units⟩ := retireStep_same ran
    refine ⟨steady.of_runs runs ?_, step steady inv (step_of_retireStep held ready ran)⟩
    rw [sq, units]
    exact steady.loadStore
  completes := by
    refine ⟨?_, ?_, ?_, ?_⟩
    · rintro c c' unit tag ⟨steady, inv⟩ here wrote
      have ran : c.completeAlu unit =
          .ok { c' with units := { c'.units with alu := c'.units.alu.set unit none } } := by
        simp only [completeAlu, here, wrote]
      refine ⟨completeAlu_steady steady ran, ?_⟩
      obtain ⟨sched, -, rfl⟩ := writeback_eq wrote
      exact step steady inv ((completeAlu_runs ran).step_of_one rfl)
    · rintro c c' unit tag stage1 stage2 ⟨steady, inv⟩ here wrote
      have ran : c.completeMul unit = .ok { c' with
          units := { c'.units with mul := c'.units.mul.set unit { stage1, stage2, stage3 := none } } } := by
        simp only [completeMul, here, wrote]
      refine ⟨completeMul_steady steady ran, ?_⟩
      obtain ⟨sched, -, rfl⟩ := writeback_eq wrote
      exact step steady inv ((completeMul_runs ran).step_of_one rfl)
    · rintro c ⟨steady, inv⟩ clear
      have same := shiftMul_view clear
      refine ⟨steady.of_runs (by rw [same]) steady.loadStore, ?_⟩
      rw [show c.shiftMul.pipe = c.pipe from congrArg Prod.snd same]
      exact inv
    · rintro c c' unit u ⟨steady, inv⟩ here answered wrote
      have ran : c.pollLsu unit = .ok { c' with
          outside := S.l1Complete c'.outside u.mshrId
          units := { c'.units with lsu := c'.units.lsu.set unit none } } := by
        simp only [pollLsu, here, answered, wrote, if_true]
      refine ⟨pollLsu_steady steady ran, ?_⟩
      obtain ⟨sched, -, rfl⟩ := writeback_eq wrote
      exact step steady inv ((pollLsu_runs ran).step_of_one rfl)
  fires := by
    refine ⟨?_, ?_, ?_, ?_⟩
    · rintro c oldest ⟨steady, inv⟩ queued canFire other isFree
      have fire := Pipeline.Step.fire (p := c.pipe) queued canFire
      simp only [pipe] at fire
      rw [← placeAlu_tags c.units oldest.destTag isFree] at fire
      exact ⟨steady.of_runs (.single (.inside fire (Log.snoc_unseen trivial)))
        (steady.loadStore.fireOther steady.nodup queued other), step steady inv fire⟩
    · rintro c oldest ⟨steady, inv⟩ queued canFire other isFree
      have fire := Pipeline.Step.fire (p := c.pipe) queued canFire
      simp only [pipe] at fire
      rw [← placeMul_tags c.units oldest.destTag isFree] at fire
      exact ⟨steady.of_runs (.single (.inside fire (Log.snoc_unseen trivial)))
        (steady.loadStore.fireOther steady.nodup queued other), step steady inv fire⟩
    · rintro c oldest outside ⟨steady, inv⟩ picked issued
      exact ⟨steady.of_runs (called_runs picked issued) steady.loadStore,
        step steady inv (.call picked.queued picked.clear)⟩
    · rintro c oldest mshrId outside ⟨steady, inv⟩ picked isFree issued
      have called := called_runs picked issued
      have steady' := steady.of_runs called steady.loadStore
      have inv' := step steady inv (.call picked.queued picked.clear)
      have placed := fireLsuPlace_runs picked isFree mshrId outside
      exact ⟨fireLsuOne_steady steady picked isFree issued,
        step steady' inv' (placed.step_of_one rfl)⟩
  dispatch := by
    rintro c inst rest ⟨steady, inv⟩ next room
    have runs := dispatchOne_runs next room
    refine ⟨steady.of_runs runs ?_, step steady inv (runs.step_of_one rfl)⟩
    exact steady.loadStore.dispatch rfl fun s mem => steady.sound.younger next mem
  delivers := by
    refine ⟨?_, ?_, ?_⟩
    · rintro c outside ⟨steady, inv⟩ -
      exact ⟨⟨steady.sound, steady.held, steady.loadStore⟩, inv⟩
    · rintro c outside ⟨steady, inv⟩ - -
      exact ⟨⟨steady.sound, steady.held, steady.loadStore⟩, inv⟩
    · rintro c rec outside ⟨steady, inv⟩ room unblocked delivered
      have runs := fetchOne_runs room unblocked delivered
      exact ⟨steady.of_runs runs steady.loadStore, step steady inv (runs.step_of_one rfl)⟩
  ticks := by
    rintro c ⟨steady, inv⟩
    exact ⟨⟨steady.sound, steady.held, steady.loadStore⟩, inv⟩
  counts := by
    rintro c stats stallCycles sig ⟨steady, inv⟩ ⟨fetched, retired⟩
    have same : Core.pipe { c with stats, stallCycles, lastProgressSig := sig } = c.pipe := by
      simp only [pipe, fetched, retired]
    refine ⟨⟨?_, ?_, steady.loadStore⟩, ?_⟩
    all_goals rw [same]
    exacts [steady.sound, steady.held, inv]

theorem turns_steady : Turns fun c : Core S => c.Steady := by
  have both : Turns fun c : Core S => c.Steady ∧ True := turns_of_steps fun _ _ _ => trivial
  simpa only [and_true] using both

end Core

/-- What the turns keep and the surroundings do not touch holds in every run. -/
theorem Core.Turns.run {S : Surroundings} {I : Core S → Prop} (keeps : Core.Turns I)
    (outside : ∀ {c : Core S} (state : S.State), I c → I { c with outside := state }) {start c : Core S}
    (inv : I start) (run : (machine S).Reachable start c) : I c := by
  refine run.invariant inv fun c action c' inv _ stepped => ?_
  cases action with
  | tick =>
      simp only [machine, Except.map] at stepped
      split at stepped
      · cases stepped
      · next ticked =>
          cases stepped
          exact keeps.tick inv ticked
  | outside state =>
      cases stepped
      exact outside state inv

end Ooo
