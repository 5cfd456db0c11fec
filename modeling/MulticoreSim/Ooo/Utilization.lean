import MulticoreSim.Ooo.MemoryOrder

/-! # Where the cycles go

Every cycle is credited once on the side of retirement: it retired something, the
buffer was empty, or its head was not ready. On the side of fetch a cycle that
retires a mispredicted branch skips the stage and is credited nowhere.
-/

namespace Ooo

/-! ## What the middle of a cycle leaves alone -/

/-- What exec, schedule and dispatch do not write. -/
structure Books where
  cfg : OooConfig
  stats : OooStats
  stallCycles : Nat
  lastProgressSig : Option ProgressSig
  fetched : List Inst
  retired : List (Inst × Nat)

namespace Core

variable {S : Surroundings} {c c' : Core S}

def books (c : Core S) : Books where
  cfg := c.cfg
  stats := c.stats
  stallCycles := c.stallCycles
  lastProgressSig := c.lastProgressSig
  fetched := Log.fetched c.log
  retired := Log.retired c.log

theorem writeback_books {tag : Nat} (ran : c.writeback tag = .ok c') : c'.books = c.books := by
  obtain ⟨sched, -, rfl⟩ := writeback_eq ran
  simp [books]

theorem completeAlu_books {unit : Nat} (ran : c.completeAlu unit = .ok c') : c'.books = c.books := by
  simp only [completeAlu] at ran
  split at ran
  · split at ran
    · cases ran
    · next wrote =>
        have same := writeback_books wrote
        cases ran
        exact same
  · cases ran
    rfl

theorem completeMul_books {unit : Nat} (ran : c.completeMul unit = .ok c') : c'.books = c.books := by
  simp only [completeMul] at ran
  split at ran
  · split at ran
    · cases ran
    · next wrote =>
        have same := writeback_books wrote
        cases ran
        exact same
  · cases ran
    rfl

theorem pollLsu_books {unit : Nat} (ran : c.pollLsu unit = .ok c') : c'.books = c.books := by
  simp only [pollLsu] at ran
  split at ran
  · split at ran
    · split at ran
      · cases ran
      · next wrote =>
          have same := writeback_books wrote
          cases ran
          exact same
    · cases ran
      rfl
  · cases ran
    rfl

theorem overUnits_books {step : Core S → Nat → Except String (Core S)} {units : List Nat}
    (each : ∀ c unit c', step c unit = .ok c' → c'.books = c.books)
    (ran : overUnits step units c = .ok c') : c'.books = c.books := by
  apply overUnits_keeps (I := fun d => d.books = c.books) _ rfl ran
  intro d unit d' before stepped
  exact (each d unit d' stepped).trans before

theorem stageExec_books (ran : c.stageExec = .ok c') : c'.books = c.books := by
  simp only [stageExec, Bind.bind, Except.bind] at ran
  split at ran
  · cases ran
  · next aluDone =>
      have alu := overUnits_books (fun _ _ _ => completeAlu_books) aluDone
      split at ran
      · cases ran
      · next mulDone =>
          have mul := overUnits_books (fun _ _ _ => completeMul_books) mulDone
          have lsu := overUnits_books (fun _ _ _ => pollLsu_books) ran
          exact (lsu.trans mul).trans alu

theorem fireInto_books {runs : Opcode → Bool} {free : Units → Bool} {place : Units → Nat → Units}
    {avail : Nat} : (fireInto runs free place avail c).books = c.books := by
  induction avail generalizing c with
  | zero => rfl
  | succ avail ih =>
      unfold fireInto
      split
      · rfl
      · apply ih.trans
        split
        · simp [books]
        · rfl

theorem fireLsuLoop_books {avail : Nat} {storeFired : Bool} (ran : fireLsuLoop avail storeFired c = .ok c') :
    c'.books = c.books := by
  induction avail generalizing c storeFired with
  | zero =>
      cases ran
      rfl
  | succ avail ih =>
      simp only [fireLsuLoop] at ran
      split at ran
      · cases ran
        rfl
      · split at ran
        · cases ran
          rfl
        · split at ran
          · cases ran
            rfl
          · split at ran
            · exact ih ran
            · split at ran
              · cases ran
              · cases ran
                simp [books]
              · apply (ih ran).trans
                simp only [books, Log.fetched_snoc, Log.retired_snoc, List.append_nil]

theorem stageSchedule_books (ran : c.stageSchedule = .ok c') : c'.books = c.books := by
  have alu : c.fireAlu.books = c.books := fireInto_books
  have mul : c.fireAlu.fireMul.books = c.fireAlu.books := fireInto_books
  exact (fireLsuLoop_books ran).trans (mul.trans alu)

theorem dispatchLoop_books {width : Nat} : (dispatchLoop width c).books = c.books := by
  induction width generalizing c with
  | zero => rfl
  | succ width ih =>
      unfold dispatchLoop
      split
      · rfl
      · split
        · rfl
        · apply ih.trans
          simp [books, dispatchOne]

/-! ## Retire -/

/-- A mispredicted branch. -/
def flushes (d : Inst × Nat) : Bool := d.1.opcode = .branch && d.1.mispredict

/-- What retiring does to the books: counts of its own, and what has retired. -/
structure Retires (before after : Books) (mispred : Bool) : Prop where
  cfg : after.cfg = before.cfg
  stats : ∃ retired branches, after.stats =
    { before.stats with instructionsRetired := retired, numBranchInstructions := branches }
  stallCycles : after.stallCycles = before.stallCycles
  lastProgressSig : after.lastProgressSig = before.lastProgressSig
  fetched : after.fetched = before.fetched
  flushed : after.retired.countP flushes = before.retired.countP flushes + if mispred then 1 else 0

theorem Retires.refl (books : Books) : Retires books books false :=
  ⟨rfl, ⟨_, _, rfl⟩, rfl, rfl, rfl, rfl⟩

theorem Retires.trans {a b d : Books} {mispred : Bool} (first : Retires a b false)
    (second : Retires b d mispred) : Retires a d mispred := by
  obtain ⟨retired, branches, stats⟩ := second.stats
  obtain ⟨retired', branches', stats'⟩ := first.stats
  refine ⟨second.cfg.trans first.cfg, ⟨retired, branches, ?_⟩, second.stallCycles.trans first.stallCycles,
    second.lastProgressSig.trans first.lastProgressSig, second.fetched.trans first.fetched, ?_⟩
  · rw [stats, stats']
  · have flushed := second.flushed
    rw [first.flushed] at flushed
    exact flushed

theorem retireHead_books (c : Core S) : Retires c.books c.retireHead.books
    (flushes (c.rob.headEntry.inst, c.rob.headEntry.destTag)) := by
  refine ⟨rfl, ⟨_, _, rfl⟩, rfl, rfl, ?_, ?_⟩
  · simp [books, retireHead]
  · simp [books, retireHead, List.countP_cons]

theorem trainPredictor_books (c : Core S) (inst : Inst) :
    Retires c.books (c.trainPredictor inst).books false := by
  unfold trainPredictor
  split
  · exact ⟨rfl, ⟨_, _, rfl⟩, rfl, rfl, rfl, rfl⟩
  · exact Retires.refl _

theorem retireStep_books {mispred : Bool} (ran : c.retireStep = .ok (mispred, c')) :
    Retires c.books c'.books mispred := by
  have trained := c.trainPredictor_books c.rob.headEntry.inst
  have head : (c.trainPredictor c.rob.headEntry.inst).rob = c.rob :=
    congrArg Pipeline.rob (c.trainPredictor_pipe _)
  simp only [retireStep] at ran
  split at ran
  · next both =>
      cases ran
      have retires := retireHead_books
        { c.trainPredictor c.rob.headEntry.inst with
          rat := (c.trainPredictor c.rob.headEntry.inst).rat.flushToReady, inMispred := false }
      have flag : flushes (c.rob.headEntry.inst, c.rob.headEntry.destTag) = true := by simp [flushes, both]
      rw [show Core.rob _ = c.rob from head, flag] at retires
      exact trained.trans retires
  · next plain =>
      have flag : flushes (c.rob.headEntry.inst, c.rob.headEntry.destTag) = false := by
        simpa [flushes] using plain
      split at ran
      · cases ran
        have retires := retireHead_books (c.trainPredictor c.rob.headEntry.inst)
        rw [head, flag] at retires
        exact trained.trans retires
      · split at ran
        · cases ran
        · next outside _ =>
            cases ran
            have retires := retireHead_books { c.trainPredictor c.rob.headEntry.inst with outside }
            rw [show Core.rob _ = c.rob from head, flag] at retires
            exact trained.trans retires

theorem retireLoop_books {turns retired : Nat} {mispred : Bool}
    (ran : retireLoop turns c = .ok (retired, mispred, c')) : Retires c.books c'.books mispred := by
  induction turns generalizing c retired with
  | zero =>
      cases ran
      exact Retires.refl _
  | succ turns ih =>
      simp only [retireLoop] at ran
      split at ran
      · cases ran
        exact Retires.refl _
      · split at ran
        · cases ran
        · next stepped =>
            cases ran
            exact retireStep_books stepped
        · next stepped =>
            split at ran
            · cases ran
            · next looped =>
                cases ran
                exact (retireStep_books stepped).trans (ih looped)

/-- A loop that retires nothing found the buffer empty or its head not ready. -/
theorem retireLoop_none {mispred : Bool} (ran : retireLoop c.rob.count c = .ok (0, mispred, c')) :
    (c.rob.empty || !c.rob.headEntry.ready) = true := by
  cases count : c.rob.count with
  | zero => simp [CircularBuffer.empty, count]
  | succ turns =>
      rw [count] at ran
      simp only [retireLoop] at ran
      split at ran
      · assumption
      · split at ran
        · cases ran
        · cases ran
        · split at ran
          · cases ran
          · cases ran

/-! ## Both sides of a cycle -/

end Core

/-- The cycles that retired, or did not for one of two reasons. -/
def OooStats.retireAxis (stats : OooStats) : Nat :=
  stats.usefulRetireCycles + stats.retireStallRobEmpty + stats.retireStallHeadBusy

/-- The four reasons for fetching nothing. -/
def OooStats.fetchStalls (stats : OooStats) : Nat :=
  stats.fetchStallSync + stats.fetchStallDispqFull + stats.fetchStallMispred + stats.fetchStallEof

namespace Core

variable {S : Surroundings} {c c' : Core S}

theorem creditRetire_axis {retired : Nat} {empty unready : Bool} (stats : OooStats)
    (reason : retired = 0 → (empty || unready) = true) :
    (creditRetire retired empty unready stats).retireAxis = stats.retireAxis + 1 := by
  unfold creditRetire OooStats.retireAxis
  split
  · dsimp only
    omega
  · next none =>
      split
      · dsimp only
        omega
      · split
        · dsimp only
          omega
        · next full ready =>
            have reason := reason (by omega)
            simp [full, ready] at reason

/-- What a cycle's retirement does to the two sides. -/
structure Credits (before after : Books) (mispred : Bool) : Prop where
  cfg : after.cfg = before.cfg
  stallCycles : after.stallCycles = before.stallCycles
  lastProgressSig : after.lastProgressSig = before.lastProgressSig
  cycles : after.stats.cycles = before.stats.cycles
  deadlocked : after.stats.deadlocked = before.stats.deadlocked
  mispredictions : after.stats.branchMispredictions = before.stats.branchMispredictions
  retireAxis : after.stats.retireAxis = before.stats.retireAxis + 1
  fetchStalls : after.stats.fetchStalls = before.stats.fetchStalls
  fetched : after.fetched = before.fetched
  flushed : after.retired.countP flushes = before.retired.countP flushes + if mispred then 1 else 0

theorem stageStateUpdate_books {mispred : Bool} (ran : c.stageStateUpdate = .ok (mispred, c')) :
    Credits c.books c'.books mispred := by
  simp only [stageStateUpdate] at ran
  split at ran
  · cases ran
  · next retired _ after looped =>
      cases ran
      have retires := retireLoop_books looped
      obtain ⟨count, branches, stats⟩ := retires.stats
      have stats : after.stats = { c.stats with
        instructionsRetired := count, numBranchInstructions := branches } := stats
      have reason : retired = 0 → (c.rob.empty || (!c.rob.empty && !c.rob.headEntry.ready)) = true := by
        rintro rfl
        have none := retireLoop_none looped
        cases empty : c.rob.empty with
        | true => rfl
        | false => simpa [empty] using none
      have axis := creditRetire_axis after.stats reason
      generalize (!c.rob.empty && !c.rob.headEntry.ready) = unready at axis ⊢
      have kept : ∀ x : OooStats, x = creditRetire retired c.rob.empty unready after.stats →
          x.cycles = c.stats.cycles ∧ x.deadlocked = c.stats.deadlocked ∧
            x.branchMispredictions = c.stats.branchMispredictions ∧
            x.fetchStalls = c.stats.fetchStalls := by
        rintro x rfl
        rw [stats]
        unfold creditRetire
        repeat' split
        all_goals exact ⟨rfl, rfl, rfl, rfl⟩
      obtain ⟨cycles, deadlocked, mispredictions, stalls⟩ := kept _ rfl
      refine ⟨retires.cfg, retires.stallCycles, retires.lastProgressSig, cycles, deadlocked, mispredictions,
        ?_, stalls, retires.fetched, retires.flushed⟩
      apply axis.trans
      rw [stats]
      rfl

/-- What fetching does to the books, with the reason it gives for an idle cycle: the
    count of fetched instructions, and what has been fetched. -/
structure Fetches (before after : Books) (fetched : Bool) (stall : Option FetchStall) : Prop where
  cfg : after.cfg = before.cfg
  stats : ∃ count, after.stats = { before.stats with instructionsFetched := count }
  stallCycles : after.stallCycles = before.stallCycles
  lastProgressSig : after.lastProgressSig = before.lastProgressSig
  retired : after.retired = before.retired
  grows : before.fetched.length ≤ after.fetched.length
  idle : stall = none ↔ fetched = true ∨ before.fetched.length < after.fetched.length

theorem Fetches.stop (books : Books) (fetched : Bool) (reason : FetchStall) :
    Fetches books books fetched (if fetched then none else some reason) := by
  refine ⟨rfl, ⟨_, rfl⟩, rfl, rfl, rfl, Nat.le_refl _, ?_⟩
  cases fetched <;> simp

/-- One delivered record. -/
theorem fetchOne_books (c : Core S) (fetched : Bool) (rec : Record) (outside : S.State) :
    Fetches c.books (c.fetchOne rec outside).books fetched none ∧
      c.books.fetched.length < (c.fetchOne rec outside).books.fetched.length := by
  have longer : c.books.fetched.length < (c.fetchOne rec outside).books.fetched.length := by
    simp [books, fetchOne]
  refine ⟨⟨rfl, ⟨_, rfl⟩, rfl, rfl, ?_, Nat.le_of_lt longer, ?_⟩, longer⟩
  · simp [books, fetchOne]
  · exact iff_of_true rfl (.inr longer)

/-- A fetch loop gives no reason exactly when it, or the loop before it, delivers. -/
theorem fetchLoop_books {width : Nat} {fetched : Bool} {stall : Option FetchStall}
    (ran : fetchLoop width fetched c = .ok (stall, c')) : Fetches c.books c'.books fetched stall := by
  induction width generalizing c fetched with
  | zero =>
      cases ran
      exact Fetches.stop _ _ .dispqFull
  | succ width ih =>
      simp only [fetchLoop] at ran
      split at ran
      · cases ran
        exact Fetches.stop _ _ .dispqFull
      · split at ran
        · cases ran
        · split at ran
          · cases ran
            exact Fetches.stop c.books _ .sync
          · cases ran
            exact Fetches.stop c.books _ .eof
        · next rec outside _ =>
            obtain ⟨one, longer⟩ := c.fetchOne_books fetched rec outside
            split at ran
            · cases ran
              exact one
            · have rest := ih ran
              obtain ⟨count, stats⟩ := rest.stats
              obtain ⟨count', stats'⟩ := one.stats
              have further := Nat.lt_of_lt_of_le longer rest.grows
              refine ⟨rest.cfg.trans one.cfg, ⟨count, ?_⟩, rest.stallCycles.trans one.stallCycles,
                rest.lastProgressSig.trans one.lastProgressSig, rest.retired.trans one.retired,
                Nat.le_of_lt further, ?_⟩
              · rw [stats, stats']
              · exact iff_of_true (rest.idle.mpr (.inl rfl)) (.inr further)

/-- A record went to the dispatch queue between two states. -/
def pushes (before after : Books) : Bool := before.fetched.length < after.fetched.length

/-- What a fetch stage does to the two sides: it pushes, or it is credited with a stall. -/
structure Debits (before after : Books) : Prop where
  cfg : after.cfg = before.cfg
  stallCycles : after.stallCycles = before.stallCycles
  lastProgressSig : after.lastProgressSig = before.lastProgressSig
  cycles : after.stats.cycles = before.stats.cycles
  deadlocked : after.stats.deadlocked = before.stats.deadlocked
  mispredictions : after.stats.branchMispredictions = before.stats.branchMispredictions
  retireAxis : after.stats.retireAxis = before.stats.retireAxis
  fetchStalls : after.stats.fetchStalls + (if pushes before after then 1 else 0) =
    before.stats.fetchStalls + 1
  retired : after.retired = before.retired

theorem creditFetch_stalls (stall : Option FetchStall) (stats : OooStats) :
    (creditFetch stall stats).fetchStalls = stats.fetchStalls + if stall = none then 0 else 1 := by
  unfold creditFetch OooStats.fetchStalls
  rcases stall with _ | stall
  · rfl
  · cases stall with
    | dispqFull | sync | eof =>
        simp only [reduceCtorEq, if_false]
        omega

theorem stageFetch_books (ran : c.stageFetch = .ok c') : Debits c.books c'.books := by
  simp only [stageFetch] at ran
  split at ran
  · cases ran
    refine ⟨rfl, rfl, rfl, rfl, rfl, rfl, rfl, ?_, rfl⟩
    simp only [pushes, books, OooStats.fetchStalls, Nat.lt_irrefl, decide_false]
    simp only [Bool.false_eq_true, if_false]
    omega
  · split at ran
    · cases ran
      refine ⟨rfl, rfl, rfl, rfl, rfl, rfl, rfl, ?_, rfl⟩
      simp only [pushes, books, OooStats.fetchStalls, Nat.lt_irrefl, decide_false]
      simp only [Bool.false_eq_true, if_false]
      omega
    · split at ran
      · cases ran
      · next stall after looped =>
          cases ran
          have fetches := fetchLoop_books looped
          obtain ⟨count, stats⟩ := fetches.stats
          have stats : after.stats = { c.stats with instructionsFetched := count } := stats
          have kept : ∀ x : OooStats, x = creditFetch stall after.stats →
              x.cycles = c.stats.cycles ∧ x.deadlocked = c.stats.deadlocked ∧
                x.branchMispredictions = c.stats.branchMispredictions ∧
                x.retireAxis = c.stats.retireAxis := by
            rintro x rfl
            rw [stats]
            unfold creditFetch
            split <;> exact ⟨rfl, rfl, rfl, rfl⟩
          obtain ⟨cycles, deadlocked, mispredictions, axis⟩ := kept _ rfl
          refine ⟨fetches.cfg, fetches.stallCycles, fetches.lastProgressSig, cycles, deadlocked,
            mispredictions, axis, ?_, fetches.retired⟩
          have idle := fetches.idle
          have stalls := creditFetch_stalls stall after.stats
          have before : after.stats.fetchStalls = c.stats.fetchStalls := by rw [stats]; rfl
          have longer : pushes c.books after.books = true ↔ stall = none := by
            rw [idle]
            simp [pushes]
          change (creditFetch stall after.stats).fetchStalls +
            (if pushes c.books after.books = true then 1 else 0) = c.stats.fetchStalls + 1
          rw [stalls, before]
          by_cases pushed : stall = none
          · rw [if_pos pushed, if_pos (longer.mpr pushed)]
          · rw [if_neg pushed, if_neg fun push => pushed (longer.mp push)]

/-! ## A whole cycle -/

/-- What a cycle does to the two sides: its retirement flushed and fetch was skipped, or
    fetch pushed or was credited with a stall. -/
structure Accounts (before after : Books) : Prop where
  cfg : after.cfg = before.cfg
  retireAxis : after.stats.retireAxis = before.stats.retireAxis + 1
  fetchAxis : after.stats.fetchStalls + after.stats.branchMispredictions +
      (if pushes before after then 1 else 0) =
    before.stats.fetchStalls + before.stats.branchMispredictions + 1
  flushed : after.retired.countP flushes + before.stats.branchMispredictions =
    before.retired.countP flushes + after.stats.branchMispredictions

/-- What the stages leave to the end of the cycle. -/
structure Defers (before after : Books) : Prop where
  stallCycles : after.stallCycles = before.stallCycles
  lastProgressSig : after.lastProgressSig = before.lastProgressSig
  cycles : after.stats.cycles = before.stats.cycles
  deadlocked : after.stats.deadlocked = before.stats.deadlocked

theorem pushes_same {before after : Books} (same : after.fetched = before.fetched) :
    pushes before after = false := by
  simp [pushes, same]

theorem stages_books (ran : c.stages = .ok c') :
    Accounts c.books c'.books ∧ Defers c.books c'.books := by
  simp only [stages, Bind.bind, Except.bind] at ran
  split at ran
  · cases ran
  · next result retired =>
      obtain ⟨mispred, updated⟩ := result
      have credits := stageStateUpdate_books retired
      dsimp only at ran
      split at ran
      · next flush =>
          cases ran
          subst flush
          refine ⟨⟨credits.cfg, credits.retireAxis, ?_, ?_⟩,
            ⟨credits.stallCycles, credits.lastProgressSig, credits.cycles, credits.deadlocked⟩⟩
          · have skipped : pushes c.books { updated with stats := { updated.stats with
                branchMispredictions := updated.stats.branchMispredictions + 1 } }.books = false :=
              pushes_same credits.fetched
            have stalls := credits.fetchStalls
            have count := credits.mispredictions
            rw [skipped]
            change updated.stats.fetchStalls + (updated.stats.branchMispredictions + 1) + 0 = _
            rw [show updated.stats.fetchStalls = _ from stalls,
              show updated.stats.branchMispredictions = _ from count]
            omega
          · have flushed := credits.flushed
            have count := credits.mispredictions
            change updated.books.retired.countP flushes + _ = _ + (updated.stats.branchMispredictions + 1)
            rw [flushed, show updated.stats.branchMispredictions = _ from count]
            simp only [if_true]
            omega
      · next plain =>
          split at ran
          · cases ran
          · next executed =>
              split at ran
              · cases ran
              · next fired scheduled =>
                  have debits := stageFetch_books ran
                  have dispatched : fired.stageDispatch.books = fired.books := dispatchLoop_books
                  rw [dispatched, stageSchedule_books scheduled, stageExec_books executed] at debits
                  have plain : mispred = false := by simpa using plain
                  subst plain
                  have pushed : pushes c.books c'.books = pushes updated.books c'.books := by
                    simp [pushes, credits.fetched]
                  refine ⟨⟨debits.cfg.trans credits.cfg, debits.retireAxis.trans credits.retireAxis, ?_, ?_⟩,
                    ⟨debits.stallCycles.trans credits.stallCycles,
                      debits.lastProgressSig.trans credits.lastProgressSig,
                      debits.cycles.trans credits.cycles, debits.deadlocked.trans credits.deadlocked⟩⟩
                  · have stalls := debits.fetchStalls
                    have before := credits.fetchStalls
                    rw [pushed, debits.mispredictions, credits.mispredictions]
                    omega
                  · have flushed := credits.flushed
                    simp only [Bool.false_eq_true, if_false, Nat.add_zero] at flushed
                    rw [debits.retired, debits.mispredictions, credits.mispredictions, flushed]

theorem watchdog_books (c : Core S) : ∃ fired at_abort stall sig, c.watchdog.2.books = { c.books with
    stats := { c.stats with deadlocked := fired, stallCyclesAtAbort := at_abort }
    stallCycles := stall, lastProgressSig := sig } := by
  unfold watchdog
  split
  · exact ⟨_, _, _, _, rfl⟩
  · split
    · dsimp only
      split
      · exact ⟨_, _, _, _, rfl⟩
      · exact ⟨_, _, _, _, rfl⟩
    · exact ⟨_, _, _, _, rfl⟩

theorem tick_accounts {more : Bool} (ran : c.tick = .ok (more, c')) :
    Accounts c.books c'.books ∧ c'.stats.cycles = c.stats.cycles + 1 := by
  obtain ⟨staged, done, rfl, -⟩ := tick_eq ran
  obtain ⟨accounts, defers⟩ := stages_books done
  obtain ⟨fired, atAbort, stall, sig, closed⟩ := watchdog_books staged.closeCycle
  have cycles : staged.closeCycle.watchdog.2.books.stats.cycles = staged.stats.cycles + 1 := by
    rw [closed]
    rfl
  refine ⟨?_, cycles.trans (congrArg (· + 1) defers.cycles)⟩
  rw [closed]
  exact ⟨accounts.cfg, accounts.retireAxis, accounts.fetchAxis, accounts.flushed⟩

end Core

/-! ## Runs -/

/-- A core with the number of its cycles that pushed a record. -/
def counted (S : Surroundings) : Machine (Core S × Nat) (Action S) String where
  step v a := ((machine S).step v.1 a).map fun c' =>
    (c', v.2 + if Core.pushes v.1.books c'.books then 1 else 0)

variable {S : Surroundings} {cfg : OooConfig} {outside : S.State} {tid : Nat} {c : Core S} {fired : Nat}

/-- The two sides of the cycles so far. -/
structure Partitioned (c : Core S) (fired : Nat) : Prop where
  retireAxis : c.stats.retireAxis = c.stats.cycles
  fetchAxis : c.stats.fetchStalls + c.stats.branchMispredictions + fired = c.stats.cycles
  flushed : c.books.retired.countP Core.flushes = c.stats.branchMispredictions

theorem Partitioned.step {c' : Core S} {a : Action S} (inv : Partitioned c fired)
    (stepped : (machine S).step c a = .ok c') :
    Partitioned c' (fired + if Core.pushes c.books c'.books then 1 else 0) := by
  cases a with
  | tick =>
      simp only [machine, Except.map] at stepped
      split at stepped
      · cases stepped
      · next ticked =>
          cases stepped
          obtain ⟨accounts, cycles⟩ := Core.tick_accounts ticked
          have retireAxis := accounts.retireAxis
          have fetchAxis := accounts.fetchAxis
          have flushed := accounts.flushed
          have before := inv.retireAxis
          have before' := inv.fetchAxis
          have before'' := inv.flushed
          refine ⟨?_, ?_, ?_⟩
          · rw [cycles, ← before]
            exact retireAxis
          · rw [cycles, ← before']
            simp only [Core.books] at fetchAxis ⊢
            omega
          · simp only [Core.books] at flushed before'' ⊢
            omega
  | outside state =>
      cases stepped
      rw [if_neg (by simp [Core.pushes, Core.books])]
      exact ⟨inv.retireAxis, inv.fetchAxis, inv.flushed⟩

theorem partitioned_run (run : (counted S).Reachable (Core.make cfg outside tid, 0) (c, fired)) :
    Partitioned c fired := by
  refine Machine.Run.invariant (I := fun v : Core S × Nat => Partitioned v.1 v.2) run ⟨rfl, rfl, rfl⟩
    fun v a v' inv _ stepped => ?_
  simp only [counted, Except.map] at stepped
  split at stepped
  · cases stepped
  · next inner =>
      cases stepped
      exact inv.step inner

/-- The retire side adds up to the cycles. The fetch side leaves the cycles that pushed a
    record exactly as long as no mispredicted branch has retired. -/
theorem cycles_partition (run : (counted S).Reachable (Core.make cfg outside tid, 0) (c, fired)) :
    c.stats.usefulRetireCycles + c.stats.retireStallRobEmpty + c.stats.retireStallHeadBusy =
        c.stats.cycles ∧
      (c.stats.cycles - (c.stats.fetchStallSync + c.stats.fetchStallDispqFull +
          c.stats.fetchStallMispred + c.stats.fetchStallEof) = fired ↔
        ∀ d ∈ Log.retired c.log, ¬(d.1.opcode = .branch ∧ d.1.mispredict = true)) := by
  have inv := partitioned_run run
  refine ⟨inv.retireAxis, ?_⟩
  have fetchAxis := inv.fetchAxis
  have none : c.stats.branchMispredictions = 0 ↔
      ∀ d ∈ Log.retired c.log, ¬(d.1.opcode = .branch ∧ d.1.mispredict = true) := by
    rw [← inv.flushed, List.countP_eq_zero]
    exact forall₂_congr fun d _ => by simp [Core.flushes]
  rw [← none]
  unfold OooStats.fetchStalls at fetchAxis
  omega

/-- A trace of one branch, which the predictor takes and the program does not, beside a
    trace of one addition. -/
def oneBranch : Core listed × Nat :=
  (counted listed).attempt (Core.make {} [{ ip := 4, isBranch := true, sourceRegisters := [1] }] 0, 0)
    (List.replicate 5 .tick)

def oneAddition : Core listed × Nat :=
  (counted listed).attempt (Core.make {} [{ ip := 4, destinationRegisters := [2] }] 0, 0)
    (List.replicate 7 .tick)

/-- Seven cycles, six of them stalls for the end of the trace. -/
theorem cycles_partition_addition : oneAddition.1.stats.cycles = 7 ∧
    oneAddition.1.stats.fetchStallEof = 6 ∧
    oneAddition.1.stats.cycles - (oneAddition.1.stats.fetchStallSync +
      oneAddition.1.stats.fetchStallDispqFull + oneAddition.1.stats.fetchStallMispred +
      oneAddition.1.stats.fetchStallEof) = oneAddition.2 := by
  refine ⟨by decide +kernel, by decide +kernel, ?_⟩
  exact (cycles_partition (counted listed |>.reachable_attempt _ (List.replicate 7 .tick) :
    (counted listed).Reachable _ oneAddition)).2.mpr (by decide +kernel)

/-- Of five cycles one pushes the branch, three wait for it and the fifth retires it. -/
theorem oneBranch_miscounts :
    (counted listed).Reachable
      (Core.make {} [{ ip := 4, isBranch := true, sourceRegisters := [1] }] 0, 0) oneBranch ∧
    oneBranch.1.stats.cycles - (oneBranch.1.stats.fetchStallSync +
      oneBranch.1.stats.fetchStallDispqFull + oneBranch.1.stats.fetchStallMispred +
      oneBranch.1.stats.fetchStallEof) = 2 ∧ oneBranch.2 = 1 :=
  ⟨Machine.reachable_attempt _ _, by decide +kernel, by decide +kernel⟩

end Ooo
