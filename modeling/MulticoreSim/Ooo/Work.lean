import MulticoreSim.Ooo.Linkage
import MulticoreSim.Ooo.Recovery
import MulticoreSim.Ooo.Stages
import MulticoreSim.Ooo.Utilization

/-! # The work of a core

What is fetched, dispatched, written back and retired is work; placing an entry in a
unit is not. Work is what the watchdog looks at: its signature tells how much of each
kind has been done. Around a core that is never refused, no cycle fails.
-/

namespace Ooo

/-! ## Counting -/

namespace Log

def wroteBack (log : List Event) : List Inst :=
  log.filterMap fun
    | .wroteBack inst => some inst
    | _ => none

@[simp] theorem wroteBack_snoc (log : List Event) (event : Event) : wroteBack (log ++ [event]) =
    wroteBack log ++
      match event with
      | .wroteBack inst => [inst]
      | _ => [] := by
  cases event <;> simp [wroteBack]

def work (log : List Event) : Nat :=
  (fetched log).length + (dispatched log).length + (wroteBack log).length + (retired log).length

/-- Everything but calling the cache and placing an entry in a unit. -/
def Works : Event → Bool
  | .called _ | .fired _ => false
  | .fetched .. | .dispatched .. | .wroteBack _ | .retired .. => true

theorem work_snoc (log : List Event) (event : Event) :
    work (log ++ [event]) = work log + if Works event then 1 else 0 := by
  cases event <;> simp [work, Works] <;> omega

end Log

namespace Pipeline

variable {p p' : Pipeline}

/-- What has been written back is no longer queued, and fetch waits for a mispredicted
    branch that is in flight. -/
structure Settled (p : Pipeline) : Prop where
  wroteBack : (Log.wroteBack p.log).length + p.sq.length = (Log.dispatched p.log).length
  guilty : p.inMispred = true → ∃ inst ∈ p.inFlight, inst.opcode = .branch ∧ inst.mispredict = true

theorem length_broadcast {sq : List SchedEntry} {tag : Nat} {sched : SchedEntry}
    (found : entryOf sq tag = some sched) :
    (eraseByTag (wakeDependents sq sched.destTag) sched.destTag).length + 1 = sq.length := by
  obtain ⟨mem, -⟩ := entryOf_spec found
  have woken : sched.wake sched.destTag ∈ wakeDependents sq sched.destTag := List.mem_map_of_mem mem
  have erased := List.length_eraseP_of_mem (p := fun e : SchedEntry => e.destTag = sched.destTag) woken
    (by simp)
  have same : (wakeDependents sq sched.destTag).length = sq.length := List.length_map _
  have some : 0 < sq.length := List.length_pos_of_mem mem
  rw [eraseByTag, erased, same]
  omega

theorem Settled.step (settled : p.Settled) (order : p.InOrder) (step : Step p p') : p'.Settled := by
  obtain ⟨wroteBack, guilty⟩ := settled
  cases step with
  | retire held ready predicted =>
      refine ⟨by simpa using wroteBack, fun blocked => ?_⟩
      obtain ⟨inst, mem, culprit⟩ := guilty blocked
      refine ⟨inst, ?_, culprit⟩
      rw [inFlight, order.rob_head held, List.map_cons, List.cons_append] at mem
      rcases List.mem_cons.mp mem with rfl | mem
      · exact absurd culprit predicted
      · exact mem
  | flush held ready mispredicted =>
      refine ⟨by simpa using wroteBack, fun blocked => ?_⟩
      cases blocked
  | @writeback tag sched pointers found held =>
      have fewer := length_broadcast found
      refine ⟨?_, fun blocked => ?_⟩
      · simp only [Log.wroteBack_snoc, Log.dispatched_snoc, List.length_append, List.length_singleton,
          List.append_nil]
        omega
      · obtain ⟨inst, mem, culprit⟩ := guilty blocked
        refine ⟨inst, ?_, culprit⟩
        have insts : (p.rob.modify sched.robIdx fun entry => { entry with ready := true }).toList.map
            (·.inst) = p.rob.toList.map (·.inst) := by
          apply CircularBuffer.toList_map_modify
          exact fun _ => rfl
        rw [inFlight] at mem ⊢
        rwa [insts]
  | call => exact ⟨by simpa using wroteBack, guilty⟩
  | fire queued canFire =>
      refine ⟨?_, guilty⟩
      have tags := congrArg List.length (map_markBusy (g := fun s => s.destTag) (fun _ => rfl) p.sq
        (SchedEntry.destTag ‹_›))
      simp only [List.length_map] at tags
      simpa [tags] using wroteBack
  | dispatch next schedqRoom robRoom =>
      refine ⟨?_, fun blocked => ?_⟩
      · simp only [Log.wroteBack_snoc, Log.dispatched_snoc, List.length_append, List.length_singleton,
          List.append_nil]
        omega
      · obtain ⟨inst, mem, culprit⟩ := guilty blocked
        refine ⟨inst, ?_, culprit⟩
        rw [inFlight, next] at mem
        rw [inFlight, CircularBuffer.toList_push order.buffer robRoom]
        simpa using mem
  | fetch room unblocked as =>
      refine ⟨by simpa using wroteBack, fun blocked => ?_⟩
      exact ⟨_, List.mem_append_right _ (List.mem_append_right _ (List.mem_singleton_self _)),
        as.branch blocked, blocked⟩

/-- What was dispatched was fetched before, and so on: there is no more work than four
    times the fetched instructions. -/
theorem Settled.work_le (settled : p.Settled) (order : p.InOrder) :
    Log.work p.log ≤ 4 * (Log.fetched p.log).length := by
  have fetched := congrArg List.length order.fetched
  have dispatched := congrArg List.length order.dispatched
  have wroteBack := settled.wroteBack
  simp only [List.length_append, List.length_map] at fetched dispatched
  unfold Log.work
  omega

end Pipeline

variable {S : Surroundings}

theorem Runs.work_le {v v' : S.State × Pipeline} (runs : Runs S v v') : Log.work v.2.log ≤ Log.work v'.2.log := by
  induction runs with
  | refl => exact Nat.le_refl _
  | tail _ last ih =>
      rcases last.step with same | step
      · rw [same]
        exact ih
      · obtain ⟨event, log⟩ := step.log
        rw [log, Log.work_snoc]
        omega

namespace Core

variable {c c' : Core S}

def work (c : Core S) : Nat := Log.work c.log

/-- The work done shows in the watchdog's signature. -/
theorem work_of_sig (order : c.pipe.InOrder) (settled : c.pipe.Settled) (order' : c'.pipe.InOrder)
    (settled' : c'.pipe.Settled) (same : c'.progressSig = c.progressSig) : c'.work = c.work := by
  have counts : ∀ {c : Core S}, c.pipe.InOrder → c.pipe.Settled →
      (Log.fetched c.log).length = c.progressSig.fetched ∧
        (Log.dispatched c.log).length + c.progressSig.dispq = c.progressSig.fetched ∧
        (Log.wroteBack c.log).length + c.progressSig.sq = (Log.dispatched c.log).length ∧
        (Log.retired c.log).length = c.progressSig.retired := by
    intro c order settled
    have numbered := congrArg List.length order.numbered
    have fetched := congrArg List.length order.fetched
    simp only [List.length_append, List.length_map, List.length_range'] at numbered fetched
    exact ⟨numbered.trans order.fetchedCount.symm,
      fetched.symm.trans (numbered.trans order.fetchedCount.symm), settled.wroteBack,
      order.retiredCount.symm⟩
  obtain ⟨fetched, dispatched, wroteBack, retired⟩ := counts order settled
  obtain ⟨fetched', dispatched', wroteBack', retired'⟩ := counts order' settled'
  rw [same] at fetched' dispatched' wroteBack' retired'
  unfold work Log.work
  omega

/-! ## Retiring is work -/

theorem retireStep_work {mispred : Bool} (ran : c.retireStep = .ok (mispred, c')) : c'.work = c.work + 1 := by
  have trained := congrArg Pipeline.log (c.trainPredictor_pipe c.rob.headEntry.inst)
  have grown : ∀ {t : Core S}, t.log = c.log → t.retireHead.work = c.work + 1 := by
    intro t log
    rw [work, retireHead, log, Log.work_snoc]
    rfl
  simp only [retireStep] at ran
  split at ran
  · cases ran
    exact grown trained
  · split at ran
    · cases ran
      exact grown trained
    · split at ran
      · cases ran
      · cases ran
        exact grown trained

theorem retireLoop_work {turns retired : Nat} {mispred : Bool}
    (ran : retireLoop turns c = .ok (retired, mispred, c')) :
    c'.work = c.work + retired ∧ (retired = 0 → mispred = false ∧ c' = c) := by
  induction turns generalizing c retired with
  | zero =>
      cases ran
      exact ⟨rfl, fun _ => ⟨rfl, rfl⟩⟩
  | succ turns ih =>
      simp only [retireLoop] at ran
      split at ran
      · cases ran
        exact ⟨rfl, fun _ => ⟨rfl, rfl⟩⟩
      · split at ran
        · cases ran
        · next stepped =>
            cases ran
            exact ⟨retireStep_work stepped, fun none => by cases none⟩
        · next stepped =>
            split at ran
            · cases ran
            · next looped =>
                cases ran
                have one := retireStep_work stepped
                have more := (ih looped).1
                exact ⟨by omega, fun none => by cases none⟩

/-- A cycle in which nothing retires has an empty buffer or a head that is not ready, and
    the first stage leaves all but a counter. -/
theorem stageStateUpdate_work {mispred : Bool} (ran : c.stageStateUpdate = .ok (mispred, c')) :
    c.work < c'.work ∨ mispred = false ∧ (∃ stats, c' = { c with stats }) ∧
      (c.rob.count = 0 ∨ c.rob.headEntry.ready = false) := by
  simp only [stageStateUpdate] at ran
  split at ran
  · cases ran
  · next retired _ after looped =>
      cases ran
      obtain ⟨grown, still⟩ := retireLoop_work looped
      by_cases none : retired = 0
      · obtain ⟨rfl, rfl⟩ := still none
        subst none
        have stopped := retireLoop_none looped
        right
        refine ⟨rfl, ⟨_, rfl⟩, ?_⟩
        simpa [CircularBuffer.empty] using stopped
      · left
        change c.work < after.work
        omega

/-! ## Cycles that cannot fail -/

theorem alu_mem_tags {units : Units} {tag : Nat} (mem : some tag ∈ units.alu) : tag ∈ units.tags := by
  refine Multiset.mem_add.mpr (.inl (Multiset.mem_add.mpr (.inl (mem_sum_map mem ?_))))
  exact Multiset.mem_singleton_self _

theorem mul_mem_tags {units : Units} {u : MulUnit} (mem : u ∈ units.mul) {tag : Nat} (here : tag ∈ u.tags) :
    tag ∈ units.tags :=
  Multiset.mem_add.mpr (.inl (Multiset.mem_add.mpr (.inr (mem_sum_map mem here))))

/-- What a unit points to is there to be written back. -/
theorem writeback_ok (held : c.pipe.Held) {tag : Nat} (mem : tag ∈ c.units.tags) :
    ∃ c', c.writeback tag = .ok c' := by
  obtain ⟨e, queued, same, -⟩ := held.points mem
  have some : (entryOf c.sq tag).isSome = true := by
    rw [entryOf, List.find?_isSome]
    exact ⟨e, queued, by simp [same]⟩
  obtain ⟨sched, found⟩ := Option.isSome_iff_exists.mp some
  simp only [writeback, found]
  exact ⟨_, rfl⟩

theorem overUnits_ok {I : Core S → Prop} {step : Core S → Nat → Except String (Core S)}
    (keeps : ∀ c unit c', I c → step c unit = .ok c' → I c')
    (each : ∀ c unit, I c → ∃ c', step c unit = .ok c') (units : List Nat) (inv : I c) :
    ∃ c', overUnits step units c = .ok c' := by
  induction units generalizing c with
  | nil => exact ⟨c, rfl⟩
  | cons unit rest ih =>
      obtain ⟨next, stepped⟩ := each c unit inv
      obtain ⟨last, ran⟩ := ih (keeps c unit next inv stepped)
      exact ⟨last, by simpa only [overUnits, stepped] using ran⟩

theorem completeAlu_ok (steady : Steady c) (unit : Nat) : ∃ c', c.completeAlu unit = .ok c' := by
  simp only [completeAlu]
  split
  · next tag here =>
      obtain ⟨c', wrote⟩ := writeback_ok steady.held (alu_mem_tags (List.mem_of_getElem? here))
      rw [wrote]
      exact ⟨_, rfl⟩
  · exact ⟨c, rfl⟩

theorem completeMul_ok (steady : Steady c) (unit : Nat) : ∃ c', c.completeMul unit = .ok c' := by
  simp only [completeMul]
  split
  · next stage1 stage2 tag here =>
      have inside : tag ∈ MulUnit.tags { stage1, stage2, stage3 := some tag } :=
        Multiset.mem_add.mpr (.inr (Multiset.mem_singleton_self _))
      obtain ⟨c', wrote⟩ := writeback_ok steady.held (mul_mem_tags (List.mem_of_getElem? here) inside)
      rw [wrote]
      exact ⟨_, rfl⟩
  · exact ⟨c, rfl⟩

theorem pollLsu_ok (steady : Steady c) (unit : Nat) : ∃ c', c.pollLsu unit = .ok c' := by
  simp only [pollLsu]
  split
  · next u here =>
      split
      · obtain ⟨c', wrote⟩ := writeback_ok steady.held (lsu_mem_tags (List.mem_of_getElem? here))
        rw [wrote]
        exact ⟨_, rfl⟩
      · exact ⟨c, rfl⟩
  · exact ⟨c, rfl⟩

theorem stageExec_ok (steady : Steady c) : ∃ c', c.stageExec = .ok c' := by
  obtain ⟨c₁, alu⟩ := overUnits_ok (fun _ _ _ => completeAlu_steady) (fun _ unit steady =>
    completeAlu_ok steady unit) (List.range c.units.alu.length) steady
  have steady₁ := overUnits_keeps (fun _ _ _ => completeAlu_steady) steady alu
  obtain ⟨c₂, mul⟩ := overUnits_ok (fun _ _ _ => completeMul_steady) (fun _ unit steady =>
    completeMul_ok steady unit) (List.range c₁.units.mul.length) steady₁
  have steady₂ := overUnits_keeps (fun _ _ _ => completeMul_steady) steady₁ mul
  have shifted : Steady c₂.shiftMul :=
    steady₂.of_runs (by rw [shiftMul_view (mul_cleared mul)]) steady₂.loadStore
  obtain ⟨c₃, lsu⟩ := overUnits_ok (fun _ _ _ => pollLsu_steady) (fun _ unit steady =>
    pollLsu_ok steady unit) (List.range c₂.units.lsu.length) shifted
  exact ⟨c₃, by simpa only [stageExec, Bind.bind, Except.bind, alu, mul] using lsu⟩

end Core

/-- The reader, the sink and the cache do not throw. -/
structure Surroundings.Willing (S : Surroundings) : Prop where
  next : ∀ o, ∃ rec o', S.next o = .ok (rec, o')
  notifyRetire : ∀ o tid token ip, ∃ o', S.notifyRetire o tid token ip = .ok o'
  l1Issue : ∀ o req, ∃ id o', S.l1Issue o req = .ok (id, o')

namespace Core

variable {c c' : Core S} (willing : S.Willing)

include willing

theorem retireStep_ok (c : Core S) : ∃ mispred c', c.retireStep = .ok (mispred, c') := by
  simp only [retireStep]
  split
  · exact ⟨_, _, rfl⟩
  · split
    · exact ⟨_, _, rfl⟩
    · next token _ =>
        obtain ⟨outside, told⟩ := willing.notifyRetire (c.trainPredictor c.rob.headEntry.inst).outside
          (c.trainPredictor c.rob.headEntry.inst).activeTid token c.rob.headEntry.inst.pc
        rw [told]
        exact ⟨_, _, rfl⟩

theorem retireLoop_ok (turns : Nat) (c : Core S) :
    ∃ retired mispred c', retireLoop turns c = .ok (retired, mispred, c') := by
  induction turns generalizing c with
  | zero => exact ⟨_, _, _, rfl⟩
  | succ turns ih =>
      simp only [retireLoop]
      split
      · exact ⟨_, _, _, rfl⟩
      · obtain ⟨mispred, next, stepped⟩ := retireStep_ok willing c
        obtain ⟨retired, mispred', last, looped⟩ := ih next
        rw [stepped]
        cases mispred with
        | true => exact ⟨_, _, _, rfl⟩
        | false =>
            dsimp only
            rw [looped]
            exact ⟨_, _, _, rfl⟩

theorem fireLsuLoop_ok (avail : Nat) (storeFired : Bool) (c : Core S) :
    ∃ c', fireLsuLoop avail storeFired c = .ok c' := by
  induction avail generalizing c storeFired with
  | zero => exact ⟨c, rfl⟩
  | succ avail ih =>
      simp only [fireLsuLoop]
      split
      · exact ⟨c, rfl⟩
      · next oldest _ =>
          split
          · exact ⟨c, rfl⟩
          · split
            · exact ⟨c, rfl⟩
            · split
              · exact ih _ _
              · obtain ⟨id, outside, issued⟩ := willing.l1Issue c.outside (c.memReq oldest.inst)
                rw [issued]
                cases id with
                | none => exact ⟨_, rfl⟩
                | some mshrId => exact ih _ _

theorem fetchLoop_ok (width : Nat) (fetched : Bool) (c : Core S) :
    ∃ stall c', fetchLoop width fetched c = .ok (stall, c') := by
  induction width generalizing c fetched with
  | zero => exact ⟨_, _, rfl⟩
  | succ width ih =>
      simp only [fetchLoop]
      split
      · exact ⟨_, _, rfl⟩
      · obtain ⟨rec, outside, delivered⟩ := willing.next c.outside
        rw [delivered]
        cases rec with
        | none =>
            dsimp only
            split <;> exact ⟨_, _, rfl⟩
        | some rec =>
            dsimp only
            split
            · exact ⟨_, _, rfl⟩
            · exact ih _ _

/-- No cycle of a steady core fails. -/
theorem tick_ok (steady : Steady c) : ∃ more c', c.tick = .ok (more, c') := by
  suffices staged : ∃ c', c.stages = .ok c' by
    obtain ⟨c', staged⟩ := staged
    simp only [tick, Bind.bind, Except.bind, staged]
    exact ⟨_, _, rfl⟩
  obtain ⟨retired, mispred, looped, ran⟩ := retireLoop_ok willing c.rob.count c
  obtain ⟨c₁, updated⟩ : ∃ c₁, c.stageStateUpdate = .ok (mispred, c₁) := by
    simp only [stageStateUpdate, ran]
    exact ⟨_, rfl⟩
  have steady₁ := stageStateUpdate_steady steady updated
  cases mispred with
  | true =>
      simp only [stages, Bind.bind, Except.bind, updated, if_true]
      exact ⟨_, rfl⟩
  | false =>
      obtain ⟨c₂, executed⟩ := stageExec_ok steady₁
      obtain ⟨c₃, scheduled⟩ : ∃ c₃, c₂.stageSchedule = .ok c₃ := fireLsuLoop_ok willing _ _ _
      obtain ⟨stall, c₄, fetched⟩ := fetchLoop_ok willing c₃.stageDispatch.cfg.fetchWidth false c₃.stageDispatch
      have last : ∃ c₅, c₃.stageDispatch.stageFetch = .ok c₅ := by
        simp only [stageFetch]
        split
        · exact ⟨_, rfl⟩
        · split
          · exact ⟨_, rfl⟩
          · rw [fetched]
            exact ⟨_, rfl⟩
      obtain ⟨c₅, last⟩ := last
      exact ⟨c₅, by
        simpa only [stages, Bind.bind, Except.bind, updated, executed, scheduled, Bool.false_eq_true, if_false]
          using last⟩

end Core

end Ooo
