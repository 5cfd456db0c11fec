import MulticoreSim.Sync.Reader

/-! # The sync coordinator

One object of the simulation keeps, per lock and atomic, the highest number that
has been completed, and per barrier and number how many have arrived. Gates are
checked at fetch and opened at retirement.
-/

namespace Sync

structure BarrierIter where
  arrived : Nat := 0
  /-- Zero until the first arrival. -/
  expected : Nat := 0
  deriving DecidableEq, Repr

structure CoordinatorStats where
  syncConsumed : Nat := 0
  syncStalled : Nat := 0
  lockAcquires : Nat := 0
  lockReleases : Nat := 0
  atomics : Nat := 0
  barrierPasses : Nat := 0
  lifecycleEvents : Nat := 0
  deriving DecidableEq, Repr

/-- `SyncCoordinator`. An object that no event has named reads as the entry that
    naming it creates. -/
structure Coordinator where
  numThreads : Nat
  blocked : Nat → Bool := fun _ => false
  /-- `last_completed_seq` by object. -/
  locks : Nat → Int := fun _ => -1
  atomics : Nat → Int := fun _ => -1
  barriers : Nat → Nat → BarrierIter := fun _ _ => {}
  stats : CoordinatorStats := {}

/-- `static_cast<std::int64_t>` of an unsigned 64-bit number. -/
def toInt64 (n : Nat) : Int := if n % 2 ^ 64 < 2 ^ 63 then n % 2 ^ 64 else n % 2 ^ 64 - 2 ^ 64

theorem toInt64_of_lt {n : Nat} (small : n < 2 ^ 63) : toInt64 n = n := by
  unfold toInt64
  omega

/-- The largest `std::int64_t`. -/
def int64Max : Int := 2 ^ 63 - 1

/-- `last_completed_seq + 1` of a signed 64-bit counter, which wraps past the largest. -/
def nextSeq (last : Int) : Int := if last = int64Max then -2 ^ 63 else last + 1

theorem nextSeq_le (last : Int) : nextSeq last ≤ last + 1 := by
  unfold nextSeq int64Max
  split <;> omega

namespace Coordinator

def checkTid (c : Coordinator) (tid : Nat) : Except String Unit :=
  if tid < c.numThreads then .ok ()
  else .error s!"SyncCoordinator: tid={tid} >= num_threads={c.numThreads}"

def stall (c : Coordinator) (tid : Nat) : Bool × Coordinator :=
  (false, { c with
    blocked := Function.update c.blocked tid true
    stats := { c.stats with syncStalled := c.stats.syncStalled + 1 } })

def pass (c : Coordinator) (tid : Nat) : Bool × Coordinator :=
  (true, { c with
    blocked := Function.update c.blocked tid false
    stats := { c.stats with syncConsumed := c.stats.syncConsumed + 1 } })

/-- The gate of a sync record, past the check of the thread. -/
def gate (c : Coordinator) (tid : Nat) (s : SyncRecord) : Bool × Coordinator :=
  match s.kind with
  | .lockAcquire =>
      if nextSeq (c.locks s.syncObjectAddr) < toInt64 s.sequenceNo then c.stall tid
      else
        { c with stats := { c.stats with lockAcquires := c.stats.lockAcquires + 1 } }.pass tid
  | .lockRelease | .barrierArrive => c.pass tid
  | .atomicRMW | .atomicLoad | .atomicStore =>
      if nextSeq (c.atomics s.syncObjectAddr) < toInt64 s.sequenceNo then c.stall tid else c.pass tid
  | .barrierLeave =>
      let iter := c.barriers s.syncObjectAddr s.sequenceNo
      if iter.expected = 0 ∨ iter.arrived < iter.expected then c.stall tid
      else
        { c with stats := { c.stats with barrierPasses := c.stats.barrierPasses + 1 } }.pass tid
  | .condWait | .condSignal | .condBroadcast => c.pass tid
  | .other _ => c.stall tid

def tryConsumeSync (c : Coordinator) (tid : Nat) (s : SyncRecord) : Except String (Bool × Coordinator) := do
  c.checkTid tid
  .ok (c.gate tid s)

/-- What a retired sync record changes, past the check of the thread. -/
def signal (c : Coordinator) (s : SyncRecord) : Coordinator :=
  match s.kind with
  | .lockRelease =>
      let seq := toInt64 s.sequenceNo
      { c with
        locks := Function.update c.locks s.syncObjectAddr
          (if seq > c.locks s.syncObjectAddr then seq else c.locks s.syncObjectAddr)
        stats := { c.stats with lockReleases := c.stats.lockReleases + 1 } }
  | .atomicRMW | .atomicLoad | .atomicStore =>
      let seq := toInt64 s.sequenceNo
      { c with
        atomics := Function.update c.atomics s.syncObjectAddr
          (if seq > c.atomics s.syncObjectAddr then seq else c.atomics s.syncObjectAddr)
        stats := { c.stats with atomics := c.stats.atomics + 1 } }
  | .barrierArrive =>
      let iter := c.barriers s.syncObjectAddr s.sequenceNo
      let expected := if iter.expected = 0 ∧ s.extraArg > 0 then s.extraArg else iter.expected
      { c with
        barriers := Function.update c.barriers s.syncObjectAddr
          (Function.update (c.barriers s.syncObjectAddr) s.sequenceNo
            { expected, arrived := iter.arrived + 1 }) }
  | _ => c

def notifyRetire (c : Coordinator) (tid : Nat) (s : SyncRecord) : Except String Coordinator := do
  c.checkTid tid
  .ok (c.signal s)

def onLifecycle (c : Coordinator) (tid : Nat) : Except String Coordinator := do
  c.checkTid tid
  .ok { c with stats := { c.stats with lifecycleEvents := c.stats.lifecycleEvents + 1 } }

def sink : Sink where
  State := Coordinator
  tryConsumeSync := tryConsumeSync
  notifyRetire := notifyRetire
  onLifecycle := onLifecycle

/-! ## What the calls do to the locks -/

variable {c c' : Coordinator} {tid : Nat} {s : SyncRecord}

theorem checkTid_bind {α : Type} {x y : α} (ran : (do c.checkTid tid; .ok x) = Except.ok y) : x = y := by
  unfold checkTid at ran
  split at ran
  · simpa [Bind.bind, Except.bind] using ran
  · cases ran

theorem gate_locks (c : Coordinator) (tid : Nat) (s : SyncRecord) : (c.gate tid s).2.locks = c.locks := by
  simp only [gate]
  repeat' split
  all_goals rfl

theorem gate_acquire (acquire : s.kind = .lockAcquire) (passes : (c.gate tid s).1 = true) :
    toInt64 s.sequenceNo ≤ c.locks s.syncObjectAddr + 1 := by
  simp only [gate, acquire] at passes
  split at passes
  · cases passes
  · next reached => exact Int.le_trans (Int.not_lt.mp reached) (nextSeq_le _)

theorem tryConsumeSync_locks {passes : Bool} (ran : c.tryConsumeSync tid s = .ok (passes, c')) :
    c'.locks = c.locks ∧ (passes = true → s.kind = .lockAcquire →
      toInt64 s.sequenceNo ≤ c.locks s.syncObjectAddr + 1) := by
  have gate := checkTid_bind ran
  have state : (c.gate tid s).2 = c' := congrArg Prod.snd gate
  have flag : (c.gate tid s).1 = passes := congrArg Prod.fst gate
  exact ⟨state ▸ gate_locks c tid s, fun passed acquire => gate_acquire acquire (flag.trans passed)⟩

theorem onLifecycle_locks (ran : c.onLifecycle tid = .ok c') : c'.locks = c.locks :=
  (checkTid_bind ran) ▸ rfl

/-- A release raises its lock to its own number; nothing else moves a lock. -/
theorem signal_locks (c : Coordinator) (s : SyncRecord) (obj : Nat) :
    (c.signal s).locks obj = if s.kind = .lockRelease ∧ obj = s.syncObjectAddr
      then max (c.locks obj) (toInt64 s.sequenceNo) else c.locks obj := by
  by_cases release : s.kind = .lockRelease
  · simp only [signal, release, true_and]
    by_cases here : obj = s.syncObjectAddr
    · subst here
      rw [Function.update_self, if_pos rfl]
      split <;> omega
    · rw [Function.update_of_ne here, if_neg here]
  · rw [if_neg fun both => release both.1]
    unfold signal
    split
    · next here => exact absurd here release
    all_goals rfl

end Coordinator

end Sync
