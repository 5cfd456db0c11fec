import MulticoreSim.Ooo.MemoryOrder
import Mathlib.Data.Multiset.OrderedMonoid
import Mathlib.Algebra.Order.Monoid.Canonical.Defs

/-! # Recovery

A mispredicted branch is the last thing that was fetched, and it retires after it
has been through everything. The cycle that retires it finds the rest of the core
at rest: the flush changes nothing, and the stages it skips would have done nothing.
-/

namespace Ooo

/-! ## A core at rest -/

/-- No unit holds anything. -/
structure Units.Idle (units : Units) : Prop where
  alu : ∀ u ∈ units.alu, u = none
  mul : ∀ u ∈ units.mul, u = {}
  lsu : ∀ u ∈ units.lsu, u = none

theorem eq_zero_of_sum {α : Type} {g : α → Multiset Nat} {l : List α} (empty : (l.map g).sum = 0) :
    ∀ x ∈ l, g x = 0 := by
  intro x mem
  apply Multiset.eq_zero_of_forall_notMem
  intro t here
  have there := Core.mem_sum_map mem here
  rw [empty] at there
  exact Multiset.notMem_zero t there

theorem elim_eq_zero {α : Type} {g : α → Nat} {u : Option α}
    (empty : u.elim (0 : Multiset Nat) (fun x => {g x}) = 0) : u = none := by
  cases u with
  | none => rfl
  | some x => exact absurd empty (Multiset.singleton_ne_zero _)

theorem Units.idle_of_tags {units : Units} (empty : units.tags = 0) : units.Idle := by
  have parts := add_eq_zero.mp empty
  have front := add_eq_zero.mp parts.1
  refine ⟨fun u mem => ?_, fun u mem => ?_, fun u mem => ?_⟩
  · exact elim_eq_zero (g := id) (eq_zero_of_sum front.1 u mem)
  · have stages := add_eq_zero.mp (eq_zero_of_sum front.2 u mem)
    have early := add_eq_zero.mp stages.1
    have stage1 := elim_eq_zero (g := id) early.1
    have stage2 := elim_eq_zero (g := id) early.2
    have stage3 := elim_eq_zero (g := id) stages.2
    cases u
    cases stage1
    cases stage2
    cases stage3
    rfl
  · exact elim_eq_zero (eq_zero_of_sum parts.2 u mem)

namespace Core

variable {S : Surroundings} {c c' : Core S}

/-- The units point into the queue, so an empty queue leaves them nothing. -/
theorem Steady.idle (steady : Steady c) (empty : c.sq = []) : c.units.Idle := by
  apply Units.idle_of_tags
  have held := steady.held
  unfold Pipeline.Held at held
  have sq : c.pipe.sq = [] := empty
  rw [sq] at held
  exact held

/-! ## Stages that find nothing to do -/

theorem overUnits_idle {step : Core S → Nat → Except String (Core S)} (still : ∀ unit, step c unit = .ok c)
    (units : List Nat) : overUnits step units c = .ok c := by
  induction units with
  | nil => rfl
  | cons unit rest ih =>
      simp only [overUnits, still unit]
      exact ih

theorem completeAlu_idle (idle : c.units.Idle) (unit : Nat) : c.completeAlu unit = .ok c := by
  unfold completeAlu
  split
  · next tag here => exact absurd (idle.alu _ (List.mem_of_getElem? here)) nofun
  · rfl

theorem completeMul_idle (idle : c.units.Idle) (unit : Nat) : c.completeMul unit = .ok c := by
  unfold completeMul
  split
  · next stage1 stage2 tag here =>
      have clear := congrArg MulUnit.stage3 (idle.mul _ (List.mem_of_getElem? here))
      exact absurd clear nofun
  · rfl

theorem pollLsu_idle (idle : c.units.Idle) (unit : Nat) : c.pollLsu unit = .ok c := by
  unfold pollLsu
  split
  · next u here => exact absurd (idle.lsu _ (List.mem_of_getElem? here)) nofun
  · rfl

theorem shiftMul_idle (idle : c.units.Idle) : c.shiftMul = c := by
  have same : c.units.mul.map
      (fun u => ({ stage1 := none, stage2 := u.stage1, stage3 := u.stage2 } : MulUnit)) =
      c.units.mul := by
    apply (List.map_congr_left fun u mem => ?_).trans (List.map_id _)
    rw [idle.mul u mem]
    rfl
  unfold shiftMul
  rw [same]

theorem stageExec_idle (idle : c.units.Idle) : c.stageExec = .ok c := by
  simp only [stageExec, Bind.bind, Except.bind, overUnits_idle (completeAlu_idle idle),
    overUnits_idle (completeMul_idle idle), shiftMul_idle idle]
  exact overUnits_idle (pollLsu_idle idle) _

theorem fireInto_idle {runs : Opcode → Bool} {free : Units → Bool} {place : Units → Nat → Units}
    (avail : Nat) (empty : c.sq = []) : fireInto runs free place avail c = c := by
  cases avail with
  | zero => rfl
  | succ avail => simp [fireInto, empty, pickOldest]

theorem stageSchedule_idle (empty : c.sq = []) : c.stageSchedule = .ok c := by
  have alu : c.fireAlu = c := fireInto_idle _ empty
  have mul : c.fireMul = c := fireInto_idle _ empty
  rw [stageSchedule, alu, mul, fireLsu]
  cases c.units.lsu.countP (·.isNone) with
  | zero => rfl
  | succ avail => simp [fireLsuLoop, empty, pickOldest]

theorem stageDispatch_idle (empty : c.dispq = []) : c.stageDispatch = c := by
  unfold stageDispatch
  cases c.cfg.fetchWidth with
  | zero => rfl
  | succ width => simp [dispatchLoop, empty]

/-! ## The flush -/

theorem flushToReady_ready {rat : Rat} (ready : ∀ reg, (rat.entries reg).ready = true) :
    rat.flushToReady = rat := by
  have entries : (fun reg => { rat.entries reg with ready := true }) = rat.entries := by
    funext reg
    rw [← ready reg]
  unfold Rat.flushToReady
  rw [entries]

/-- With an empty queue no register waits for a result. -/
theorem Steady.table_ready (steady : Steady c) (empty : c.sq = []) (reg : Reg) :
    (c.rat.entries reg).ready = true := by
  have reads := steady.sound.renamed.table reg
  cases ready : (c.rat.entries reg).ready with
  | true => rfl
  | false =>
      have tableReady : (c.pipe.rat.entries reg).ready = false := ready
      rw [tableReady] at reads
      obtain ⟨-, -, -, -, -, s, queued, -⟩ := reads.unready
      have queued : s ∈ c.sq := queued
      rw [empty] at queued
      cases queued

/-- One turn of the retire loop, by whether it flushes. -/
theorem retireStep_keeps {mispred : Bool} (ran : c.retireStep = .ok (mispred, c')) :
    c'.dispq = c.dispq ∧ c'.rob = c.rob.pop ∧
      (mispred = true → c.rob.headEntry.inst.mispredict = true) ∧
      c'.rat = if mispred then c.rat.flushToReady else c.rat := by
  have trained : (c.trainPredictor c.rob.headEntry.inst).pipe = c.pipe := c.trainPredictor_pipe _
  have dispq := congrArg Pipeline.dispq trained
  have rob := congrArg Pipeline.rob trained
  have rat := congrArg Pipeline.rat trained
  simp only [retireStep] at ran
  split at ran
  · next both =>
      cases ran
      exact ⟨dispq, congrArg CircularBuffer.pop rob, fun _ => both.2, congrArg Rat.flushToReady rat⟩
  · split at ran
    · cases ran
      exact ⟨dispq, congrArg CircularBuffer.pop rob, (by simp), rat⟩
    · split at ran
      · cases ran
      · cases ran
        exact ⟨dispq, congrArg CircularBuffer.pop rob, (by simp), rat⟩

/-- What a core has left when a mispredicted branch retires. -/
structure AtRest (c : Core S) : Prop where
  dispq : c.dispq = []
  sq : c.sq = []
  rob : c.rob.count = 0
  units : c.units.Idle
  table : ∀ reg, (c.rat.entries reg).ready = true

theorem retireLoop_atRest {turns retired : Nat} (steady : Steady c)
    (ran : retireLoop turns c = .ok (retired, true, c')) :
    AtRest c' ∧ c'.dispq = c.dispq ∧ c'.rat = c.rat := by
  induction turns generalizing c retired with
  | zero => cases ran
  | succ turns ih =>
      simp only [retireLoop] at ran
      split at ran
      · cases ran
      · next more =>
          have held : c.rob.count ≠ 0 := by
            intro none
            simp [CircularBuffer.empty, none] at more
          have ready : c.rob.headEntry.ready = true := by
            by_contra unready
            simp [unready] at more
          split at ran
          · cases ran
          · next stepped =>
              cases ran
              obtain ⟨dispq, rob, branch, rat⟩ := retireStep_keeps stepped
              obtain ⟨sq, units⟩ := retireStep_same stepped
              have mispredict := branch rfl
              have empty := steady.sound.renamed.flush_empties steady.sound.linked steady.sound.order held
                ready mispredict
              obtain ⟨rest, waiting⟩ := steady.sound.renamed.lone.head steady.sound.order held mispredict
              have table := steady.table_ready empty
              have same : c'.rat = c.rat := rat.trans (flushToReady_ready table)
              refine ⟨⟨dispq.trans waiting, sq.trans empty, ?_, units ▸ steady.idle empty, same ▸ table⟩,
                dispq, same⟩
              rw [rob]
              exact CircularBuffer.toList_eq_nil.mp rest
          · next stepped =>
              split at ran
              · cases ran
              · next looped =>
                  cases ran
                  obtain ⟨sq, units⟩ := retireStep_same stepped
                  have after := steady.of_runs (retireStep_runs held ready stepped)
                    (by rw [sq, units]; exact steady.loadStore)
                  obtain ⟨rest, dispq, rat⟩ := ih after looped
                  obtain ⟨dispq', -, -, rat'⟩ := retireStep_keeps stepped
                  exact ⟨rest, dispq.trans dispq', rat.trans rat'⟩

/-- The flush finds everything else at rest and leaves it as it was. -/
theorem stageStateUpdate_atRest (steady : Steady c) (ran : c.stageStateUpdate = .ok (true, c')) :
    AtRest c' ∧ c'.dispq = c.dispq ∧ c'.sq = c.sq ∧ c'.units = c.units ∧ c'.rat = c.rat := by
  simp only [stageStateUpdate] at ran
  split at ran
  · cases ran
  · next looped =>
      cases ran
      obtain ⟨rest, dispq, rat⟩ := retireLoop_atRest steady looped
      obtain ⟨sq, units⟩ := retireLoop_same looped
      exact ⟨⟨rest.dispq, rest.sq, rest.rob, rest.units, rest.table⟩, dispq, sq, units, rat⟩

end Core

/-! ## Runs -/

variable {S : Surroundings} {cfg : OooConfig} {outside : S.State} {tid : Nat} {c c' : Core S}

/-- When a mispredicted branch retires, nothing else is in the queues, the units and the
    buffer, and no register waits: the flush leaves the table as it is, and the stages
    that the cycle skips would leave the core as it is. -/
theorem recovery_drops_nothing (run : (machine S).Reachable (Core.make cfg outside tid) c)
    (ran : c.stageStateUpdate = .ok (true, c')) :
    (c.dispq = [] ∧ c.sq = [] ∧ c.units.Idle ∧ ∀ reg, (c.rat.entries reg).ready = true) ∧
      (c'.rob.count = 0 ∧ c'.dispq = c.dispq ∧ c'.sq = c.sq ∧ c'.units = c.units ∧ c'.rat = c.rat) ∧
      c'.stageExec = .ok c' ∧ c'.stageSchedule = .ok c' ∧ c'.stageDispatch = c' := by
  obtain ⟨rest, dispq, sq, units, rat⟩ := Core.stageStateUpdate_atRest (steady_run run) ran
  refine ⟨⟨dispq ▸ rest.dispq, sq ▸ rest.sq, units ▸ rest.units, rat ▸ rest.table⟩,
    ⟨rest.rob, dispq, sq, units, rat⟩, ?_, ?_, ?_⟩
  · exact Core.stageExec_idle rest.units
  · exact Core.stageSchedule_idle rest.sq
  · exact Core.stageDispatch_idle rest.dispq

/-- An addition and a mispredicted branch after it, up to the cycle that retires the branch. -/
def addThenBranch : Core listed :=
  (machine listed).attempt
    (Core.make {} [{ ip := 4, destinationRegisters := [2] },
      { ip := 8, isBranch := true, sourceRegisters := [2] }, { ip := 12, sourceMemory := [64] }] 0)
    (List.replicate 5 .tick)

theorem addThenBranch_recovers : ∃ c', addThenBranch.stageStateUpdate = .ok (true, c') ∧
    addThenBranch.rob.count = 1 ∧ c'.rob.count = 0 ∧ c'.rat = addThenBranch.rat ∧
    c'.stageExec = .ok c' := by
  have flushes : addThenBranch.stageStateUpdate.toOption.map (·.1) = some true := by decide +kernel
  have one : addThenBranch.rob.count = 1 := by decide +kernel
  obtain ⟨⟨mispred, c'⟩, ran, rfl⟩ := exists_ok flushes
  obtain ⟨-, ⟨rob, -, -, -, rat⟩, exec, -⟩ := recovery_drops_nothing
    (machine listed |>.reachable_attempt _ (List.replicate 5 .tick) : (machine listed).Reachable _
      addThenBranch) ran
  exact ⟨c', ran, one, rob, rat, exec⟩

end Ooo
