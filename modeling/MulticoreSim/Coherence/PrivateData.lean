import MulticoreSim.Coherence.PrivateRounds
import MulticoreSim.Coherence.CoherenceMode

/-! # Private data

What the five protocols do to traces of which no two touch the same block: they
all come to an end, with the counters that the traces alone determine.
-/

namespace Coherence

/-! ## The watchdog -/

/-- `kMaxCycles`: `run_coherence_mode` gives up after so many cycles. -/
def kMaxCycles : Timestamp := 500000

section

variable {F : ProtocolFsm} {L : Own F} {s : Settings} {traces : NodeId → List Instruction}
  {σ σ' : System F ficiPort} {w : NodeId → Way} {i j : NodeId}

/-- Nothing has come out of memory yet. -/
structure Unread (s : Settings) (σ : System F ficiPort) : Prop where
  due : σ.dir.requestInProgress = true → s.memLatency ≤ σ.dir.responseTime
  reads : σ.clock < s.memLatency → σ.stats.memoryReads = 0

theorem tickProc_reads {n n' : CpuNode F ficiPort} {st st' : CoherenceStats}
    (step : n.tickProc s i st = .ok (n', st')) : st'.memoryReads = st.memoryReads := by
  unfold CpuNode.tickProc at step
  split at step
  · cases step
    rfl
  · split at step
    · cases step
    · cases step
      unfold CpuNode.countMiss
      split <;> rfl

theorem tickNtwk_reads {n n' : CpuNode F ficiPort} {st st' : CoherenceStats}
    (step : n.tickNtwk s i st = .ok (n', st')) : st'.memoryReads = st.memoryReads := by
  unfold CpuNode.tickNtwk at step
  split at step
  · cases step
    rfl
  · split at step
    · cases step
    · cases step
      unfold CpuNode.countMiss
      split <;> rfl

/-- A CPU node reads no memory. -/
theorem tick_reads {n n' : CpuNode F ficiPort} {st st' : CoherenceStats}
    (step : n.tick s i st = .ok (n', st')) : st'.memoryReads = st.memoryReads := by
  obtain ⟨k, called⟩ := called_stats n s i st
  unfold CpuNode.tick at step
  simp only at step
  split at step
  · cases step
  · next n₁ st₁ proc =>
      rw [tickNtwk_reads step, tickProc_reads proc]
      simp only [CpuNode.called] at called
      rw [called]

/-- While memory takes longer than the clock has run, it has answered nobody. -/
theorem Unread.step (unread : Unread s σ) (mode : s.cacheMode = .privateL2) (tracks : Tracks L s traces σ w)
    (net : Network s σ) (small : s.numProcs ≤ kMaxSharers) (apart : PrivateTraces s traces)
    {a : Action ficiPort} (step : σ.step s a = .ok σ') : Unread s σ' := by
  cases a with
  | dirTick =>
      obtain ⟨d, st, taken, -, reads, rfl, -, -⟩ := tracks.dirTick net small apart step
      have due : d.requestInProgress = true → s.memLatency ≤ d.responseTime := by
        rcases processQueue_soon taken with rfl | ⟨-, -, soon⟩
        · exact unread.due
        · exact fun busy => (soon busy).2 mode
      have clock : d.currentClock = σ.clock := by
        rcases processQueue_soon taken with rfl | ⟨-, clock, -⟩
        · rfl
        · exact clock
      by_cases now : d.requestInProgress = true ∧ d.responseTime ≤ d.currentClock
      · have late : s.memLatency ≤ σ.clock := ((due now.1).trans now.2).trans_eq clock
        refine ⟨?_, fun early => absurd early (Nat.not_lt.mpr late)⟩
        unfold DirectoryController.respond
        rw [if_pos now]
        simp only
        split <;> nofun
      · have same : d.respond s F.usesE st = (d, st) := by
          unfold DirectoryController.respond
          rw [if_neg now]
        rw [same]
        exact ⟨due, fun early => reads.trans (unread.reads early)⟩
  | tick i =>
      simp only [System.step] at step
      split at step
      · split at step
        · cases step
        · next n st ticked =>
            cases step
            exact ⟨unread.due, fun early => (tick_reads ticked).trans (unread.reads early)⟩
      · cases step
  | dirTock =>
      simp only [System.step] at step
      split at step
      · cases step
        exact ⟨unread.due, fun early => unread.reads (Nat.lt_of_succ_lt early)⟩
      · cases step
  | tock i =>
      simp only [System.step] at step
      split at step
      · cases step
        exact ⟨unread.due, unread.reads⟩
      · cases step
  | deliver i | dirDeliver i =>
      simp only [System.step] at step
      split at step
      · split at step
        · cases step
        · cases step
          exact ⟨unread.due, unread.reads⟩
      · cases step
  | external i event => exact event.elim

theorem unread_run (L : Own F) (N : Laws F) (mode : s.cacheMode = .privateL2)
    (small : s.numProcs ≤ kMaxSharers) (apart : PrivateTraces s traces)
    (reached : (System.machine F ficiPort s).Reachable (coherenceMode F s traces) σ) : Unread s σ := by
  refine reached.invariant_under (J := fun σ => Network s σ ∧ ∃ w, Tracks L s traces σ w)
    (I := fun σ => Unread s σ) (fun _ => Tracks.run L N small apart) ⟨nofun, fun _ => rfl⟩ ?_
  rintro σ a σ' ⟨net, w, tracks⟩ unread - step
  exact unread.step mode tracks net small apart step

/-- Only its own halves move the directory's cycle. -/
theorem step_cycle {a : Action ficiPort} (step : σ.step s a = .ok σ') (half : a ≠ .dirTick)
    (other : a ≠ .dirTock) : σ'.clock = σ.clock ∧ σ'.ticked s.numProcs = σ.ticked s.numProcs := by
  cases a with
  | dirTick => exact absurd rfl half
  | dirTock => exact absurd rfl other
  | external i event => exact event.elim
  | tick i =>
      simp only [System.step] at step
      split at step
      · next here =>
          split at step
          · cases step
          · cases step
            exact ⟨rfl, Function.update_of_ne (ne_of_gt here.1) _ _⟩
      · cases step
  | tock i =>
      simp only [System.step] at step
      split at step
      · next here =>
          cases step
          exact ⟨rfl, Function.update_of_ne (ne_of_gt here.1) _ _⟩
      · cases step
  | deliver i | dirDeliver i =>
      simp only [System.step] at step
      split at step
      · split at step
        · cases step
        · cases step
          exact ⟨rfl, rfl⟩
      · cases step

theorem attempt_cycle (actions : List (Action ficiPort))
    (others : ∀ a ∈ actions, a ≠ .dirTick ∧ a ≠ .dirTock) :
    ((System.machine F ficiPort s).attempt σ actions).clock = σ.clock ∧
      ((System.machine F ficiPort s).attempt σ actions).ticked s.numProcs = σ.ticked s.numProcs := by
  induction actions generalizing σ with
  | nil => exact ⟨rfl, rfl⟩
  | cons a rest ih =>
      have rest_others : ∀ a ∈ rest, a ≠ .dirTick ∧ a ≠ .dirTock :=
        fun a mem => others a (List.mem_cons_of_mem _ mem)
      obtain ⟨half, other⟩ := others a List.mem_cons_self
      simp only [Machine.attempt]
      cases step : (System.machine F ficiPort s).step σ a with
      | error fault => exact ih rest_others
      | ok σ' =>
          obtain ⟨clock, ticked⟩ := step_cycle step half other
          obtain ⟨clock', ticked'⟩ := ih (σ := σ') rest_others
          exact ⟨clock'.trans clock, ticked'.trans ticked⟩

/-- After a number of whole cycles the clock shows that number. -/
theorem clock_cycles (L : Own F) (N : Laws F) (small : s.numProcs ≤ kMaxSharers)
    (apart : PrivateTraces s traces) (k : Nat) :
    let σ := (System.machine F ficiPort s).attempt (coherenceMode F s traces)
      (List.replicate k (ficiCycle s.numProcs)).flatten
    σ.clock = k ∧ σ.ticked s.numProcs = false := by
  induction k with
  | zero => exact ⟨rfl, rfl⟩
  | succ k ih =>
      have reached : (System.machine F ficiPort s).Reachable (coherenceMode F s traces) _ :=
        Machine.reachable_attempt _ (List.replicate k (ficiCycle s.numProcs)).flatten
      simp only [List.replicate_succ', List.flatten_concat, Machine.attempt_append] at ih ⊢
      generalize (System.machine F ficiPort s).attempt (coherenceMode F s traces)
        (List.replicate k (ficiCycle s.numProcs)).flatten = σ at ih reached ⊢
      obtain ⟨clock, waits⟩ := ih
      have whole : ficiCycle s.numProcs =
          ((List.range s.numProcs).flatMap fun i => [.tick i, .deliver i]) ++ [.dirTick] ++
            ((List.range s.numProcs).map .dirDeliver ++ (List.range s.numProcs).map .tock) ++ [.dirTock] := by
        simp [ficiCycle]
      simp only [whole, Machine.attempt_append _ (_ ++ [Action.dirTick]), Machine.attempt_append _ _ [_]]
      obtain ⟨clock₁, waits₁⟩ := attempt_cycle (s := s) (σ := σ)
        ((List.range s.numProcs).flatMap fun i => [.tick i, .deliver i]) (by simp; grind)
      have reached₁ := Machine.Run.attempt_from reached (fun _ _ => trivial)
        ((List.range s.numProcs).flatMap fun i => [.tick i, .deliver i])
      generalize (System.machine F ficiPort s).attempt σ _ = σ₁ at clock₁ waits₁ reached₁ ⊢
      obtain ⟨net, w, tracks⟩ := Tracks.run L N small apart reached₁
      obtain ⟨σ₂, tick, ticked, clock₂⟩ := Course.dirTick tracks net small apart (waits₁.trans waits)
      rw [Machine.attempt_of_exec tick.ran]
      obtain ⟨clock₃, ticked₃⟩ := attempt_cycle (s := s) (σ := σ₂)
        ((List.range s.numProcs).map .dirDeliver ++ (List.range s.numProcs).map .tock) (by simp; grind)
      generalize (System.machine F ficiPort s).attempt σ₂ _ = σ₃ at clock₃ ticked₃ ⊢
      obtain ⟨σ₄, tock, waits₄, clock₄⟩ := Course.dirTock (ticked₃.trans ticked)
      rw [Machine.attempt_of_exec tock.ran]
      exact ⟨by rw [clock₄, clock₃, clock₂, clock₁, clock], waits₄⟩

end

/-! ## The counters -/

/-- Private data is protocol independent: runs come to an end, and then show what the traces say. -/
theorem private_data (p : Protocol) (s : Settings) (small : s.numProcs ≤ 16)
    (traces : NodeId → List Instruction) (apart : PrivateTraces s traces) :
    (∀ k σ, Rounds s (coherenceMode p.fsm s traces) k σ → roundsEnough s traces ≤ k → σ.isDone s) ∧
      (∀ σ, (System.machine p.fsm ficiPort s).Reachable (coherenceMode p.fsm s traces) σ →
        ∃ actions σ', Round s σ actions ∧ (System.machine p.fsm ficiPort s).exec σ actions = .ok σ') ∧
      ∀ σ, (System.machine p.fsm ficiPort s).Reachable (coherenceMode p.fsm s traces) σ → σ.isDone s →
        σ.stats.cacheMisses = (touchedPairs s traces).card ∧
          σ.stats.memoryReads = (touchedPairs s traces).card ∧ σ.stats.c2cTransfers = 0 ∧
          σ.stats.memoryWrites = 0 ∧
          σ.stats.silentUpgrades =
            match p with
            | .MI | .MSI | .MOSI => 0
            | .MESI | .MOESIF => (raisedPairs s traces).card := by
  refine ⟨fun k σ rounds enough => ?_, fun σ reached => ?_, fun σ reached done => ?_⟩
  · obtain ⟨reached, w, on, far⟩ := Rounds.far p.own p.laws small apart rounds
    exact on.isDone (by omega)
  · exact exists_round p.own p.laws small apart reached
  · obtain ⟨net, w, tracks⟩ := Tracks.run p.own p.laws small apart reached
    obtain ⟨misses, reads, transfers, writes, raises⟩ := tracks.finished done
    refine ⟨misses, reads, transfers, writes, raises.trans ?_⟩
    cases p <;> rfl

/-- Two CPUs, of which the first reads and then writes its block. -/
def strangers (i : NodeId) : List Instruction :=
  if i = 0 then [⟨'r', 64⟩, ⟨'w', 64⟩] else if i = 1 then [⟨'r', 128⟩] else []

theorem strangers_apart : PrivateTraces rivalSettings strangers := by
  unfold PrivateTraces
  decide

/-- The strangers after some cycles. -/
def estranged (F : ProtocolFsm) (cycles : Nat) : System F ficiPort :=
  (System.machine F ficiPort rivalSettings).attempt (coherenceMode F rivalSettings strangers)
    (List.replicate cycles (ficiCycle 2)).flatten

theorem estranged_done : (estranged mesi 40).isDone rivalSettings := by
  unfold System.isDone
  decide +kernel

theorem private_data_strangers :
    (estranged mesi 40).stats.cacheMisses = (touchedPairs rivalSettings strangers).card ∧
      (estranged mesi 40).stats.memoryReads = (touchedPairs rivalSettings strangers).card ∧
      (estranged mesi 40).stats.c2cTransfers = 0 ∧ (estranged mesi 40).stats.memoryWrites = 0 ∧
      (estranged mesi 40).stats.silentUpgrades = (raisedPairs rivalSettings strangers).card :=
  (private_data .MESI rivalSettings (by decide) strangers strangers_apart).2.2 _
    (Machine.reachable_attempt _ _) estranged_done

/-- Memory that takes longer than the watchdog waits. -/
def slowSettings : Settings := { numProcs := 1, memLatency := 600000 }

def oneLoad (i : NodeId) : List Instruction := if i = 0 then [⟨'r', 64⟩] else []

/-- Where the watchdog ends the run, the counters are not those of the traces. -/
theorem private_data_watchdog :
    let σ := (System.machine msi ficiPort slowSettings).attempt (coherenceMode msi slowSettings oneLoad)
      (List.replicate kMaxCycles (ficiCycle slowSettings.numProcs)).flatten
    PrivateTraces slowSettings oneLoad ∧ σ.clock = kMaxCycles ∧ σ.stats.memoryReads = 0 ∧
      (touchedPairs slowSettings oneLoad).card = 1 := by
  have apart : PrivateTraces slowSettings oneLoad := by
    unfold PrivateTraces
    decide
  have clock := (clock_cycles msiOwn msiNetwork (by decide) apart kMaxCycles).1
  have unread := unread_run msiOwn msiNetwork rfl (by decide) apart
    (Machine.reachable_attempt (m := System.machine msi ficiPort slowSettings)
      (coherenceMode msi slowSettings oneLoad)
      (List.replicate kMaxCycles (ficiCycle slowSettings.numProcs)).flatten)
  refine ⟨apart, clock, unread.reads ?_, by decide⟩
  rw [clock]
  decide

end Coherence
