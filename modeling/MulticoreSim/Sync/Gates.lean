import MulticoreSim.Sync.Separation

/-! # Gates stay open

Retirements raise the counters that the gates look at, and nothing lowers them. A
gate that stood open is therefore open at the next poll, as long as no counter
comes to the end of its range.
-/

namespace Sync

/-- A call of the coordinator, by any thread. -/
inductive Call where
  | tryConsumeSync (tid : Nat) (s : SyncRecord)
  | notifyRetire (tid : Nat) (s : SyncRecord)
  | onLifecycle (tid : Nat)
  deriving DecidableEq, Repr

/-- The coordinator under calls that come as they like. -/
def calls : Machine Coordinator Call String where
  step c
    | .tryConsumeSync tid s => (c.tryConsumeSync tid s).map (·.2)
    | .notifyRetire tid s => c.notifyRetire tid s
    | .onLifecycle tid => c.onLifecycle tid

theorem toInt64_le_max (n : Nat) : toInt64 n ≤ int64Max := by
  unfold toInt64 int64Max
  split <;> omega

/-- A counter that grows opens more, unless it has just come to the end. -/
theorem nextSeq_mono {last last' : Int} (grows : last ≤ last')
    (below : last' = int64Max → last = int64Max) : nextSeq last ≤ nextSeq last' := by
  unfold nextSeq
  by_cases top : last' = int64Max
  · rw [if_pos top, if_pos (below top)]
  · rw [if_neg top]
    unfold int64Max at *
    split <;> omega

namespace Coordinator

variable {c c' : Coordinator} {tid : Nat} {s : SyncRecord}

/-- `try_consume_sync` answers with true. -/
def Passes (c : Coordinator) (tid : Nat) (s : SyncRecord) : Prop :=
  ∃ c', c.tryConsumeSync tid s = .ok (true, c')

/-- The call brings a counter to the largest number it can hold. -/
def Tops (c : Coordinator) : Call → Prop
  | .notifyRetire _ s =>
      toInt64 s.sequenceNo = int64Max ∧
        match s.kind with
        | .lockRelease => c.locks s.syncObjectAddr < int64Max
        | .atomicRMW | .atomicLoad | .atomicStore => c.atomics s.syncObjectAddr < int64Max
        | _ => False
  | _ => False

/-- What a gate asks of the counters. -/
def Opens (c : Coordinator) (s : SyncRecord) : Prop :=
  match s.kind with
  | .lockAcquire => toInt64 s.sequenceNo ≤ nextSeq (c.locks s.syncObjectAddr)
  | .atomicRMW | .atomicLoad | .atomicStore =>
      toInt64 s.sequenceNo ≤ nextSeq (c.atomics s.syncObjectAddr)
  | .barrierLeave => (c.barriers s.syncObjectAddr s.sequenceNo).Full
  | .other _ => False
  | _ => True

theorem gate_opens (c : Coordinator) (tid : Nat) (s : SyncRecord) :
    (c.gate tid s).1 = true ↔ c.Opens s := by
  unfold gate Opens
  cases s.kind with
  | lockAcquire | atomicRMW | atomicLoad | atomicStore =>
      dsimp only
      split
      · next short => exact ⟨nofun, fun reached => absurd short (Int.not_lt.mpr reached)⟩
      · next reached => exact ⟨fun _ => Int.not_lt.mp reached, fun _ => rfl⟩
  | barrierLeave =>
      dsimp only
      split
      · next short =>
          refine ⟨nofun, fun full => ?_⟩
          exact absurd short (not_or.mpr ⟨full.1, Nat.not_lt.mpr full.2⟩)
      · next full =>
          rw [not_or, Nat.not_lt] at full
          exact ⟨fun _ => full, fun _ => rfl⟩
  | other => exact ⟨nofun, nofun⟩
  | lockRelease | barrierArrive | condWait | condSignal | condBroadcast =>
      exact ⟨fun _ => trivial, fun _ => rfl⟩

theorem passes_iff : c.Passes tid s ↔ tid < c.numThreads ∧ c.Opens s := by
  rw [← gate_opens c tid s]
  simp only [Passes, tryConsumeSync, checkTid]
  by_cases known : tid < c.numThreads
  · simp only [known, if_true, Bind.bind, Except.bind, Except.ok.injEq, true_and]
    exact ⟨fun ⟨c', same⟩ => congrArg Prod.fst same, fun opens => ⟨_, Prod.ext opens rfl⟩⟩
  · simp [known, Bind.bind, Except.bind]

/-! ## What the calls keep -/

/-- Everything that a gate looks at stays the same. -/
structure SameCounters (c c' : Coordinator) : Prop where
  threads : c'.numThreads = c.numThreads
  locks : c'.locks = c.locks
  atomics : c'.atomics = c.atomics
  barriers : c'.barriers = c.barriers

theorem SameCounters.opens (same : SameCounters c c') : c'.Opens s ↔ c.Opens s := by
  unfold Opens
  rw [same.locks, same.atomics, same.barriers]

theorem gate_same (c : Coordinator) (tid : Nat) (s : SyncRecord) : SameCounters c (c.gate tid s).2 := by
  refine ⟨?_, gate_locks c tid s, ?_, gate_barriers c tid s⟩
  all_goals
    simp only [gate]
    repeat' split
    all_goals rfl

/-- An atomic raises its object to its own number; nothing else moves one. -/
theorem signal_atomics (c : Coordinator) (s : SyncRecord) (obj : Nat) :
    (c.signal s).atomics obj =
      if (s.kind = .atomicRMW ∨ s.kind = .atomicLoad ∨ s.kind = .atomicStore) ∧ obj = s.syncObjectAddr
      then max (c.atomics obj) (toInt64 s.sequenceNo) else c.atomics obj := by
  unfold signal
  cases s.kind with
  | atomicRMW | atomicLoad | atomicStore =>
      by_cases here : obj = s.syncObjectAddr
      · subst here
        simp only [Function.update_self, if_true, and_true, true_or, or_true]
        split <;> omega
      · dsimp only
        rw [Function.update_of_ne here, if_neg fun both => here both.2]
  | lockAcquire | lockRelease | barrierArrive | barrierLeave | condWait | condSignal | condBroadcast | other =>
      rw [if_neg (by simp)]

theorem signal_threads (c : Coordinator) (s : SyncRecord) : (c.signal s).numThreads = c.numThreads := by
  unfold signal
  repeat' split
  all_goals rfl

theorem signal_nextSeq (s : SyncRecord) (mild : ¬c.Tops (.notifyRetire tid s)) (obj : Nat) :
    nextSeq (c.locks obj) ≤ nextSeq ((c.signal s).locks obj) ∧
      nextSeq (c.atomics obj) ≤ nextSeq ((c.signal s).atomics obj) := by
  have bound := toInt64_le_max s.sequenceNo
  simp only [Tops, not_and] at mild
  constructor
  · rw [signal_locks]
    split
    · next raised =>
        obtain ⟨release, rfl⟩ := raised
        simp only [release] at mild
        exact nextSeq_mono (Int.le_max_left ..) fun top => by omega
    · exact Int.le_refl _
  · rw [signal_atomics]
    split
    · next raised =>
        obtain ⟨atomic, rfl⟩ := raised
        have below : toInt64 s.sequenceNo = int64Max → ¬c.atomics s.syncObjectAddr < int64Max := by
          rcases atomic with kind | kind | kind
          all_goals simpa only [kind] using mild
        exact nextSeq_mono (Int.le_max_left ..) fun top => by omega
    · exact Int.le_refl _

theorem signal_opens {t : SyncRecord} (mild : ¬c.Tops (.notifyRetire tid t)) (opens : c.Opens s) :
    (c.signal t).Opens s := by
  have grows := signal_nextSeq t mild s.syncObjectAddr
  unfold Opens at opens ⊢
  cases kind : s.kind with
  | lockAcquire =>
      simp only [kind] at opens
      exact Int.le_trans opens grows.1
  | atomicRMW | atomicLoad | atomicStore =>
      simp only [kind] at opens
      exact Int.le_trans opens grows.2
  | barrierLeave =>
      simp only [kind] at opens
      simp only [signal_barriers]
      split
      · exact fills_arrive _ _ opens
      · exact opens
  | lockRelease | barrierArrive | condWait | condSignal | condBroadcast => trivial
  | other => simp only [kind] at opens

/-- One call, of whichever thread. -/
theorem Passes.step {a : Call} (passes : c.Passes tid s) (mild : ¬c.Tops a)
    (stepped : calls.step c a = .ok c') : c'.Passes tid s := by
  obtain ⟨known, opens⟩ := passes_iff.mp passes
  apply passes_iff.mpr
  cases a with
  | tryConsumeSync poller t =>
      simp only [calls, tryConsumeSync, checkTid] at stepped
      split at stepped
      · cases stepped
        have same := gate_same c poller t
        exact ⟨same.threads ▸ known, same.opens.mpr opens⟩
      · cases stepped
  | notifyRetire retirer t =>
      have signalled : c.signal t = c' := checkTid_bind stepped
      subst signalled
      exact ⟨signal_threads c t ▸ known, signal_opens mild opens⟩
  | onLifecycle teller =>
      have told := checkTid_bind stepped
      subst told
      exact ⟨known, opens⟩

theorem Passes.run (passes : c.Passes tid s) (run : calls.Run (fun c a => ¬c.Tops a) c c') :
    c'.Passes tid s :=
  Machine.Run.invariant (I := fun c => c.Passes tid s) run passes fun _ _ _ passes mild stepped =>
    passes.step mild stepped

/-- A poll that stalls flags the thread and counts the stall. -/
theorem stalls (ran : c.tryConsumeSync tid s = .ok (false, c')) :
    c' = { c with
      blocked := Function.update c.blocked tid true
      stats := { c.stats with syncStalled := c.stats.syncStalled + 1 } } := by
  have gated := checkTid_bind ran
  have state : (c.gate tid s).2 = c' := congrArg Prod.snd gated
  have flag : (c.gate tid s).1 = false := congrArg Prod.fst gated
  rw [← state]
  cases kind : s.kind with
  | lockAcquire | atomicRMW | atomicLoad | atomicStore | barrierLeave =>
      simp only [gate, kind] at flag ⊢
      split
      · rfl
      · next opened =>
          rw [if_neg opened] at flag
          cases flag
  | lockRelease | barrierArrive | condWait | condSignal | condBroadcast =>
      simp only [gate, kind] at flag
      cases flag
  | other =>
      simp only [gate, kind]
      rfl

/-! ## The end of the range -/

/-- Counters start below the first number. -/
structure Counting (c : Coordinator) : Prop where
  locks : ∀ obj, -1 ≤ c.locks obj
  atomics : ∀ obj, -1 ≤ c.atomics obj

theorem Counting.step {a : Call} (counting : c.Counting) (stepped : calls.step c a = .ok c') :
    c'.Counting := by
  cases a with
  | tryConsumeSync poller t =>
      simp only [calls, tryConsumeSync, checkTid] at stepped
      split at stepped
      · cases stepped
        have same := gate_same c poller t
        exact ⟨same.locks ▸ counting.locks, same.atomics ▸ counting.atomics⟩
      · cases stepped
  | notifyRetire retirer t =>
      have signalled : c.signal t = c' := checkTid_bind stepped
      subst signalled
      refine ⟨fun obj => ?_, fun obj => ?_⟩
      · have before := counting.locks obj
        rw [signal_locks]
        split <;> omega
      · have before := counting.atomics obj
        rw [signal_atomics]
        split <;> omega
  | onLifecycle teller =>
      have told := checkTid_bind stepped
      subst told
      exact ⟨counting.locks, counting.atomics⟩

/-- The gate of the first number stands open until its counter comes to the end. -/
theorem Tops.shuts {a : Call} (tops : c.Tops a) (counting : c.Counting)
    (stepped : calls.step c a = .ok c') : ∃ tid s, c.Passes tid s ∧ ¬c'.Passes tid s := by
  cases a with
  | tryConsumeSync | onLifecycle => exact tops.elim
  | notifyRetire tid t =>
      obtain ⟨top, below⟩ := tops
      have known : tid < c.numThreads := by
        simp only [calls, notifyRetire, checkTid] at stepped
        split at stepped
        · assumption
        · cases stepped
      have signalled : c.signal t = c' := checkTid_bind stepped
      subst signalled
      have first : toInt64 0 = 0 := rfl
      -- The object of the retired record, asked for the first number.
      cases kind : t.kind with
      | lockRelease =>
          simp only [kind] at below
          have started := counting.locks t.syncObjectAddr
          refine ⟨tid, { kind := .lockAcquire, syncObjectAddr := t.syncObjectAddr }, ?_, ?_⟩
          · refine passes_iff.mpr ⟨known, ?_⟩
            simp only [Opens, first, nextSeq, if_neg (Int.ne_of_lt below)]
            omega
          · intro passes
            have opens := (passes_iff.mp passes).2
            simp only [Opens, first, signal_locks, kind, true_and, if_pos, top,
              Int.max_eq_right (Int.le_of_lt below), nextSeq] at opens
            omega
      | atomicRMW | atomicLoad | atomicStore =>
          simp only [kind] at below
          have started := counting.atomics t.syncObjectAddr
          refine ⟨tid, { kind := .atomicLoad, syncObjectAddr := t.syncObjectAddr }, ?_, ?_⟩
          · refine passes_iff.mpr ⟨known, ?_⟩
            simp only [Opens, first, nextSeq, if_neg (Int.ne_of_lt below)]
            omega
          · intro passes
            have opens := (passes_iff.mp passes).2
            simp [Opens, first, signal_atomics, kind, top, Int.max_eq_right (Int.le_of_lt below),
              nextSeq] at opens
      | lockAcquire | barrierArrive | barrierLeave | condWait | condSignal | condBroadcast | other =>
          simp only [kind] at below

end Coordinator

/-! ## Runs -/

theorem counting_run {n : Nat} {c : Coordinator} (run : calls.Reachable { numThreads := n } c) :
    c.Counting :=
  run.invariant ⟨fun _ => Int.le_refl _, fun _ => Int.le_refl _⟩
    fun _ _ _ counting _ stepped => counting.step stepped

/-- While no counter comes to the end of its range, whatever passes keeps passing; a
    call that brings one there shuts a gate that was open; a poll that stalls changes
    the flag of its thread and the count of stalls only. -/
theorem gates_stay_open (c c' : Coordinator) :
    (calls.Run (fun c a => ¬c.Tops a) c c' → ∀ tid s, c.Passes tid s → c'.Passes tid s) ∧
    (∀ n, calls.Reachable { numThreads := n } c → ∀ a, calls.step c a = .ok c' →
      c.Tops a → ∃ tid s, c.Passes tid s ∧ ¬c'.Passes tid s) ∧
    ∀ tid s, c.tryConsumeSync tid s = .ok (false, c') →
      c' = { c with
        blocked := Function.update c.blocked tid true
        stats := { c.stats with syncStalled := c.stats.syncStalled + 1 } } :=
  ⟨fun run _ _ passes => passes.run run,
    fun _ run _ stepped tops => tops.shuts (counting_run run) stepped,
    fun _ _ ran => Coordinator.stalls ran⟩

/-- The first turn of a lock is over. -/
def handedOver : Coordinator :=
  calls.attempt { numThreads := 2 } [.notifyRetire 0 { kind := .lockRelease, syncObjectAddr := 64 }]

/-- The second turn stands open through a later number, a duplicate and a stalled poll. -/
theorem handedOver_stays_open : ∃ c',
    calls.exec handedOver [
      .notifyRetire 0 { kind := .lockRelease, syncObjectAddr := 64, sequenceNo := 4 },
      .notifyRetire 1 { kind := .lockRelease, syncObjectAddr := 64 },
      .tryConsumeSync 1 { kind := .lockAcquire, syncObjectAddr := 64, sequenceNo := 9 }] = .ok c' ∧
    c'.blocked 1 = true ∧
    c'.Passes 1 { kind := .lockAcquire, syncObjectAddr := 64, sequenceNo := 1 } := by
  refine ⟨_, rfl, rfl, (gates_stay_open handedOver _).1 ?_ _ _ ⟨_, rfl⟩⟩
  refine .step (a := .tryConsumeSync 1
    { kind := .lockAcquire, syncObjectAddr := 64, sequenceNo := 9 }) (.step (a := .notifyRetire 1
    { kind := .lockRelease, syncObjectAddr := 64 }) (.step (a := .notifyRetire 0
    { kind := .lockRelease, syncObjectAddr := 64, sequenceNo := 4 }) .start ?_ rfl) ?_ rfl) ?_ rfl
  · exact fun tops => absurd tops.1 (by decide)
  · exact fun tops => absurd tops.1 (by decide)
  · exact id

/-- The release of the last number shuts the gate of the first. -/
theorem gates_shut_at_top : ∃ c',
    calls.step { numThreads := 1 }
      (.notifyRetire 0 { kind := .lockRelease, syncObjectAddr := 64, sequenceNo := 2 ^ 63 - 1 }) = .ok c' ∧
    Coordinator.Passes { numThreads := 1 } 0 { kind := .lockAcquire, syncObjectAddr := 64 } ∧
    ¬c'.Passes 0 { kind := .lockAcquire, syncObjectAddr := 64 } := by
  refine ⟨_, rfl, ⟨_, rfl⟩, fun ⟨c', passes⟩ => ?_⟩
  have answer := congrArg (fun r : Except String (Bool × Coordinator) => r.toOption.map (·.1)) passes
  cases answer

end Sync
