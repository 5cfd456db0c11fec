import MulticoreSim.Sync.Threads

/-! # Locks exclude

A lock's counter stands at a number only once every release up to it has retired.
An acquire goes past its gate at the number after, so that what follows it waits
for the release before it, on whatever core that is.
-/

namespace Sync

open Ooo

variable {H : Hardware}

/-- The core has retired a release of the lock with the number. -/
def Released (log : List Event) (obj n : Nat) : Prop :=
  ∃ r ∈ Log.retired log, ∃ token, r.1.syncToken = some token ∧ token.kind = .lockRelease ∧
    token.syncObjectAddr = obj ∧ token.sequenceNo = n

/-- A release comes after an acquire of its lock with its number. -/
def Paired (trace : List TraceRecord) : Prop :=
  ∀ before s after, trace = before ++ .sync s :: after → s.kind = .lockRelease →
    s.sequenceNo < 2 ^ 63 ∧ ∃ a, .sync a ∈ before ∧ a.kind = .lockAcquire ∧
      a.syncObjectAddr = s.syncObjectAddr ∧ a.sequenceNo = s.sequenceNo

/-- The gates of the acquires among some records stand open. -/
def Open (locks : Nat → Int) (records : List TraceRecord) : Prop :=
  ∀ s, .sync s ∈ records → s.kind = .lockAcquire →
    toInt64 s.sequenceNo ≤ locks s.syncObjectAddr + 1

theorem Open.mono {locks locks' : Nat → Int} {records : List TraceRecord} (opened : Open locks records)
    (grows : ∀ obj, locks obj ≤ locks' obj) : Open locks' records := fun s mem acquire =>
  Int.le_trans (opened s mem acquire) (Int.add_le_add_right (grows _) 1)

theorem Open.append {locks : Nat → Int} {records more : List TraceRecord} (opened : Open locks records)
    (openedMore : Open locks more) : Open locks (records ++ more) := fun s mem acquire =>
  (List.mem_append.mp mem).elim (opened s · acquire) (openedMore s · acquire)

/-! ## One call of the reader -/

theorem admits_open {tid : Nat} {c c' : Coordinator.sink.State} {passed : List TraceRecord}
    (admits : Reader.Admits Coordinator.sink tid c passed c') :
    Coordinator.locks c' = Coordinator.locks c ∧ Open (Coordinator.locks c) passed := by
  obtain ⟨locks, gates⟩ := admits.gates
    (I := fun sink => Coordinator.locks sink = Coordinator.locks c)
    (G := fun s => s.kind = .lockAcquire →
      toInt64 s.sequenceNo ≤ Coordinator.locks c s.syncObjectAddr + 1)
    (fun sink s passes sink' same consumed => by
      obtain ⟨locks, gate⟩ := Coordinator.tryConsumeSync_locks consumed
      exact ⟨locks.trans same, fun passed acquire => same ▸ gate passed acquire⟩)
    (fun sink sink' same told => (Coordinator.onLifecycle_locks told).trans same) rfl
  exact ⟨locks, fun s mem acquire => gates s mem (by rw [acquire]; rfl) acquire⟩

theorem next_open {o o' : (threaded H).State} {out : Option Record} (ran : (threaded H).next o = .ok (out, o')) :
    ∃ passed, o.reader.ahead = passed ++ o'.reader.ahead ∧ deliverables passed = out.toList ∧
      o'.coordinator.locks = o.coordinator.locks ∧ Open o.coordinator.locks passed := by
  simp only [threaded] at ran
  split at ran
  · cases ran
  · next read =>
      cases ran
      obtain ⟨passed, passes⟩ := Reader.next_spec read
      obtain ⟨locks, opened⟩ := admits_open passes.admits
      exact ⟨passed, passes.ahead, passes.delivered, locks, opened⟩

theorem quiet_same {o o' : (threaded H).State} (quiet : (threaded H).Quiet o o') :
    o'.reader = o.reader ∧ o'.coordinator = o.coordinator := by
  cases quiet with
  | predict | update | complete | tick => exact ⟨rfl, rfl⟩
  | @issue _ req id issued =>
      simp only [threaded, Except.map] at issued
      split at issued
      · cases issued
      · cases issued
        exact ⟨rfl, rfl⟩

/-! ## One tick -/

/-- What a core's own tick keeps, beside what others have released. -/
structure Turn (trace : List TraceRecord) (elsewhere : Nat → Nat → Prop) (base : Nat → Int)
    (v : (threaded H).State × Pipeline) : Prop where
  order : v.2.InOrder
  follows : ∃ done, trace = done ++ v.1.reader.ahead ∧ Log.delivered v.2.log = deliverables done ∧
    Open v.1.coordinator.locks done
  grows : ∀ obj, base obj ≤ v.1.coordinator.locks obj
  released : ∀ obj n : Nat, (n : Int) ≤ v.1.coordinator.locks obj → elsewhere obj n ∨ Released v.2.log obj n

/-- A delivered token comes from a sync record. -/
theorem token_source {records : List TraceRecord} {token : SyncToken}
    (mem : some token ∈ (deliverables records).map (·.syncToken)) :
    ∃ s, .sync s ∈ records ∧ s.token = token := by
  obtain ⟨record, mem, token_eq⟩ := List.mem_map.mp mem
  obtain ⟨source, past, became⟩ := List.mem_filterMap.mp mem
  cases source with
  | instr r plain =>
      cases became
      rw [plain] at token_eq
      cases token_eq
  | sync s =>
      simp only [deliverable] at became
      split at became
      · cases became
        exact ⟨s, past, Option.some.inj token_eq⟩
      · cases became
  | lifecycle | malformed => cases became

/-- A token that retires comes from a record that the reader has gone past. -/
theorem token_of_done {p : Pipeline} (order : p.InOrder) {done : List TraceRecord}
    (delivered : Log.delivered p.log = deliverables done) {inst : Inst} {tag : Nat}
    (retired : (inst, tag) ∈ Log.retired p.log) {token : SyncToken} (sync : inst.syncToken = some token) :
    ∃ s, .sync s ∈ done ∧ s.token = token := by
  have fetched : inst ∈ Log.fetched p.log :=
    order.retired_prefix.subset (List.mem_map_of_mem (f := Prod.fst) retired)
  refine token_source ?_
  rw [← delivered, ← order.delivered]
  exact List.mem_map.mpr ⟨inst, fetched, sync⟩

theorem Released.mono {log more : List Event} {obj n : Nat} (released : Released log obj n)
    (grows : ∀ r ∈ Log.retired log, r ∈ Log.retired more) : Released more obj n := by
  obtain ⟨r, mem, rest⟩ := released
  exact ⟨r, grows r mem, rest⟩

theorem Released.some_retired {log : List Event} {obj n : Nat} (released : Released log obj n) :
    Log.retired log ≠ [] := by
  obtain ⟨r, mem, -⟩ := released
  exact List.ne_nil_of_mem mem

variable {trace : List TraceRecord} {elsewhere : Nat → Nat → Prop} {base : Nat → Int}
  {v v' : (threaded H).State × Pipeline}

theorem Turn.read {o o' : (threaded H).State} {p p' : Pipeline} {out : Option Record}
    (turn : Turn trace elsewhere base (o, p)) (order : p'.InOrder)
    (ran : (threaded H).next o = .ok (out, o'))
    (delivered : Log.delivered p'.log = Log.delivered p.log ++ out.toList)
    (retired : Log.retired p'.log = Log.retired p.log) : Turn trace elsewhere base (o', p') := by
  obtain ⟨passed, ahead, became, locks, opened⟩ := next_open ran
  obtain ⟨done, split, before, openedBefore⟩ := turn.follows
  refine ⟨order, ⟨done ++ passed, ?_, ?_, ?_⟩, fun obj => ?_, fun obj n reached => ?_⟩
  · rw [split, List.append_assoc, ← ahead]
  · rw [delivered, before, ← became]
    exact (List.filterMap_append ..).symm
  · rw [locks]
    exact openedBefore.append opened
  · rw [locks]
    exact turn.grows obj
  · rw [locks] at reached
    exact (turn.released obj n reached).imp_right (·.mono fun r mem => retired ▸ mem)

/-- A release that the reader has gone past carries at most the number after its
    lock's. -/
theorem Paired.release_next (paired : Paired trace) {locks : Nat → Int} {done ahead : List TraceRecord}
    (split : trace = done ++ ahead) (opened : Open locks done) {s : SyncRecord} (past : .sync s ∈ done)
    (release : s.kind = .lockRelease) :
    toInt64 s.sequenceNo = s.sequenceNo ∧ (s.sequenceNo : Int) ≤ locks s.syncObjectAddr + 1 := by
  obtain ⟨before, after, here⟩ := List.append_of_mem past
  obtain ⟨small, a, mem, acquire, obj, number⟩ := paired before s (after ++ ahead)
    (by rw [split, here, List.append_assoc, List.cons_append]) release
  have gate := opened a (here ▸ List.mem_append_left _ mem) acquire
  rw [obj, number, toInt64_of_lt small] at gate
  exact ⟨toInt64_of_lt small, gate⟩

theorem Turn.act (paired : Paired trace) (turn : Turn trace elsewhere base v) (acts : Acts (threaded H) v v') :
    Turn trace elsewhere base v' := by
  cases acts with
  | call quiet =>
      obtain ⟨reader, coordinator⟩ := quiet_same quiet
      refine ⟨turn.order, ?_, ?_, ?_⟩
      · simpa only [reader, coordinator] using turn.follows
      · simpa only [coordinator] using turn.grows
      · simpa only [coordinator] using turn.released
  | starve starved => exact turn.read turn.order starved (List.append_nil _).symm rfl
  | inside step unseen =>
      obtain ⟨done, split, before, opened⟩ := turn.follows
      refine ⟨turn.order.step step, ⟨done, split, unseen.1.trans before, opened⟩, turn.grows,
        fun obj n reached => ?_⟩
      exact (turn.released obj n reached).imp_right (·.mono fun r mem => unseen.2 ▸ mem)
  | deliver step delivered log =>
      exact turn.read (turn.order.step step) delivered (by simp [log]) (by simp [log])
  | @retire o o' p p' inst tag step log told =>
      have order := turn.order.step step
      have delivered : Log.delivered p'.log = Log.delivered p.log := by simp [log]
      have retired : Log.retired p'.log = Log.retired p.log ++ [(inst, tag)] := by simp [log]
      have grows : ∀ r ∈ Log.retired p.log, r ∈ Log.retired p'.log := fun r mem =>
        retired ▸ List.mem_append_left _ mem
      obtain ⟨done, split, before, opened⟩ := turn.follows
      rcases told with ⟨rfl, -⟩ | ⟨token, sync, told⟩
      · refine ⟨order, ⟨done, split, delivered.trans before, opened⟩, turn.grows, fun obj n reached => ?_⟩
        exact (turn.released obj n reached).imp_right (·.mono grows)
      · obtain ⟨s, past, rfl⟩ := token_of_done order (delivered.trans before)
          (retired ▸ List.mem_append_right _ (List.mem_singleton_self _)) sync
        simp only [threaded] at told
        split at told
        · cases told
        · next told =>
            cases told
            rename_i coordinator
            have signalled := Coordinator.checkTid_bind told
            have locks : ∀ obj, coordinator.locks obj = if s.kind = .lockRelease ∧ obj = s.syncObjectAddr
                then max (o.coordinator.locks obj) (toInt64 s.sequenceNo) else o.coordinator.locks obj :=
              fun obj => signalled ▸ Coordinator.signal_locks ..
            have raised : ∀ obj, o.coordinator.locks obj ≤ coordinator.locks obj := fun obj => by
              rw [locks]
              split
              · exact Int.le_max_left ..
              · exact Int.le_refl _
            refine ⟨order, ⟨done, split, delivered.trans before, opened.mono raised⟩,
              fun obj => Int.le_trans (turn.grows obj) (raised obj), fun obj n reached => ?_⟩
            by_cases already : (n : Int) ≤ o.coordinator.locks obj
            · exact (turn.released obj n already).imp_right (·.mono grows)
            · -- The lock moves to the number of this very release.
              have moves : s.kind = .lockRelease ∧ obj = s.syncObjectAddr := by
                by_contra stays
                exact already (by simpa only [locks, if_neg stays] using reached)
              obtain ⟨release, rfl⟩ := moves
              obtain ⟨number, next⟩ := paired.release_next split opened past release
              have next : (s.sequenceNo : Int) ≤ o.coordinator.locks s.syncObjectAddr + 1 := next
              rw [locks, if_pos ⟨release, rfl⟩, number] at reached
              have below := (le_max_iff.mp reached).resolve_left already
              have same : s.sequenceNo = n := by omega
              refine .inr ⟨(inst, tag), ?_, s.token, sync, release, rfl, same⟩
              exact retired ▸ List.mem_append_right _ (List.mem_singleton_self _)

/-! ## Runs -/

/-- The invariant of all threads together. -/
structure Good (traces : Nat → List TraceRecord) (s : Threads H) : Prop where
  order : ∀ i, (s.cores i).pipe.InOrder
  follows : ∀ i, ∃ done, traces i = done ++ (s.cores i).outside.reader.ahead ∧
    Log.delivered (s.cores i).log = deliverables done ∧ Open s.coordinator.locks done
  released : ∀ obj n : Nat, (n : Int) ≤ s.coordinator.locks obj → ∃ i, Released (s.cores i).log obj n

variable {traces : Nat → List TraceRecord} {s : Threads H}

/-- Released by a core other than the given one. -/
def ReleasedElsewhere (s : Threads H) (i obj n : Nat) : Prop :=
  ∃ j, j ≠ i ∧ Released (s.cores j).log obj n

theorem Good.turn (good : Good traces s) (i : Nat) :
    Turn (traces i) (ReleasedElsewhere s i) s.coordinator.locks (s.core i).view := by
  refine ⟨good.order i, good.follows i, fun _ => Int.le_refl _, fun obj n reached => ?_⟩
  obtain ⟨j, released⟩ := good.released obj n reached
  by_cases own : j = i
  · subst own
    exact .inr released
  · exact .inl ⟨j, own, released⟩

theorem Turn.put {i : Nat} {c : Core (threaded H)} (good : Good traces s)
    (turn : Turn (traces i) (ReleasedElsewhere s i) s.coordinator.locks c.view) : Good traces (s.put i c) := by
  have other : ∀ {j}, j ≠ i → (s.put i c).cores j = s.cores j := fun diff => Function.update_of_ne diff ..
  have own : (s.put i c).cores i = c := Function.update_self ..
  refine ⟨fun j => ?_, fun j => ?_, fun obj n reached => ?_⟩
  · by_cases here : j = i
    · subst here
      rw [own]
      exact turn.order
    · rw [other here]
      exact good.order j
  · by_cases here : j = i
    · subst here
      rw [own]
      exact turn.follows
    · rw [other here]
      obtain ⟨done, split, delivered, opened⟩ := good.follows j
      exact ⟨done, split, delivered, opened.mono turn.grows⟩
  · rcases turn.released obj n reached with ⟨j, diff, released⟩ | released
    · exact ⟨j, (other diff).symm ▸ released⟩
    · exact ⟨i, own.symm ▸ released⟩

theorem good_run {numThreads : Nat} {cfg : Nat → OooConfig} {hardware : Nat → H.State}
    (paired : ∀ i, Paired (traces i))
    (run : (Threads.machine H).Reachable (Threads.start numThreads traces cfg hardware) s) :
    Good traces s := by
  refine run.invariant ?_ fun s action s' good _ stepped => ?_
  · refine ⟨fun i => inOrder_run .start, fun i => ⟨[], rfl, rfl, nofun⟩, fun obj n reached => ?_⟩
    have start : (n : Int) ≤ -1 := reached
    omega
  · cases action with
    | tick i =>
        simp only [Threads.machine, Except.map] at stepped
        split at stepped
        · cases stepped
        · next ticked =>
            cases stepped
            have runs := Core.tick_runs ticked
            exact Turn.put good (runs.keeps (fun _ _ turn acts => turn.act (paired i) acts) (good.turn i))
    | hardware i state =>
        cases stepped
        obtain ⟨order, follows, grows, released⟩ := good.turn i
        exact Turn.put good ⟨order, follows, grows, released⟩

/-! ## Mutual exclusion -/

/-- The thread's file has an acquire of the lock with the number at the place. -/
def AcquireAt (traces : Nat → List TraceRecord) (i p obj n : Nat) : Prop :=
  ∃ s, (traces i)[p]? = some (.sync s) ∧ s.kind = .lockAcquire ∧ s.syncObjectAddr = obj ∧
    s.sequenceNo = n

def ReleaseAt (traces : Nat → List TraceRecord) (i q obj n : Nat) : Prop :=
  ∃ s, (traces i)[q]? = some (.sync s) ∧ s.kind = .lockRelease ∧ s.syncObjectAddr = obj ∧
    s.sequenceNo = n

/-- The numbers that some records acquire a lock with, in order. -/
def acquired (obj : Nat) (records : List TraceRecord) : List Nat :=
  records.filterMap fun
    | .sync s => if s.kind = .lockAcquire ∧ s.syncObjectAddr = obj then some s.sequenceNo else none
    | _ => none

/-- Each lock is acquired once with each number from zero on, and released with the
    number of the thread's acquire before. -/
structure WellNumbered (traces : Nat → List TraceRecord) : Prop where
  numbers : ∀ obj, ∃ k ≤ 2 ^ 63, ∀ n, (∃ i p, AcquireAt traces i p obj n) ↔ n < k
  distinct : ∀ obj n i p j q, AcquireAt traces i p obj n → AcquireAt traces j q obj n → i = j ∧ p = q
  releases : ∀ i q obj n, ReleaseAt traces i q obj n → (acquired obj ((traces i).take q)).getLast? = some n

theorem WellNumbered.acquire_before (numbered : WellNumbered traces) {i q obj n : Nat}
    (release : ReleaseAt traces i q obj n) : ∃ p < q, AcquireAt traces i p obj n := by
  have mem := List.mem_of_getLast? (numbered.releases i q obj n release)
  obtain ⟨record, before, became⟩ := List.mem_filterMap.mp mem
  obtain ⟨p, bound, here⟩ := List.getElem_of_mem before
  rw [List.length_take] at bound
  have at_p : (traces i)[p]? = some record := by
    rw [← here, List.getElem_take, List.getElem?_eq_getElem]
  cases record with
  | sync s =>
      simp only at became
      split at became
      · next acquire =>
          cases became
          exact ⟨p, by omega, s, at_p, acquire.1, acquire.2, rfl⟩
      · cases became
  | instr | lifecycle | malformed => cases became

theorem WellNumbered.small (numbered : WellNumbered traces) {i p obj n : Nat}
    (acquire : AcquireAt traces i p obj n) : n < 2 ^ 63 := by
  obtain ⟨k, bound, used⟩ := numbered.numbers obj
  exact Nat.lt_of_lt_of_le ((used n).mp ⟨i, p, acquire⟩) bound

theorem WellNumbered.paired (numbered : WellNumbered traces) (i : Nat) : Paired (traces i) := by
  intro before s after split release
  have here : ReleaseAt traces i before.length s.syncObjectAddr s.sequenceNo :=
    ⟨s, by simp [split], release, rfl, rfl⟩
  obtain ⟨p, bound, a, at_p, acquire, obj, number⟩ := numbered.acquire_before here
  refine ⟨numbered.small ⟨a, at_p, acquire, obj, number⟩, a, ?_, acquire, obj, number⟩
  rw [split, List.getElem?_append_left bound] at at_p
  exact List.mem_of_getElem? at_p

/-- The thread has gone past an acquire of the lock and has not retired its release. -/
def Inside (traces : Nat → List TraceRecord) (s : Threads H) (i obj : Nat) : Prop :=
  ∃ n p, AcquireAt traces i p obj n ∧
    p + (s.cores i).outside.reader.ahead.length < (traces i).length ∧ ¬Released (s.cores i).log obj n

/-- The records whose instructions have retired: the first of the delivered ones. -/
def retiredRecords (log : List Event) : List Record :=
  (Log.delivered log).take (Log.retired log).length

/-- Behind an acquire there is an open gate. -/
theorem Good.passed (good : Good traces s) (numbered : WellNumbered traces) {i p obj n : Nat}
    (acquire : AcquireAt traces i p obj n)
    (past : p + (s.cores i).outside.reader.ahead.length < (traces i).length) :
    (n : Int) ≤ s.coordinator.locks obj + 1 := by
  have small := numbered.small acquire
  obtain ⟨a, at_p, kind, rfl, rfl⟩ := acquire
  obtain ⟨done, split, -, opened⟩ := good.follows i
  rw [split] at past at_p
  rw [List.length_append, Nat.add_lt_add_iff_right] at past
  rw [List.getElem?_append_left past] at at_p
  have gate := opened a (List.mem_of_getElem? at_p) kind
  rwa [toInt64_of_lt small] at gate

/-- A retired release was in its core's own file. -/
theorem Good.release_at (good : Good traces s) {i obj n : Nat} (released : Released (s.cores i).log obj n) :
    ∃ q, ReleaseAt traces i q obj n := by
  obtain ⟨⟨inst, tag⟩, mem, token, sync, kind, rfl, rfl⟩ := released
  obtain ⟨done, split, delivered, -⟩ := good.follows i
  obtain ⟨r, past, rfl⟩ := token_of_done (good.order i) delivered mem sync
  obtain ⟨q, bound, at_q⟩ := List.getElem_of_mem past
  refine ⟨q, r, ?_, kind, rfl, rfl⟩
  rw [split, List.getElem?_append_left bound, List.getElem?_eq_getElem bound, at_q]

/-- A release that has retired is that of the thread with the acquire of its number. -/
theorem Good.owner (good : Good traces s) (numbered : WellNumbered traces) {i j p obj n : Nat}
    (acquire : AcquireAt traces i p obj n) (released : Released (s.cores j).log obj n) : j = i := by
  obtain ⟨q, release⟩ := good.release_at released
  obtain ⟨p', -, acquire'⟩ := numbered.acquire_before release
  exact (numbered.distinct obj n j p' i p acquire' acquire).1

/-- With a token, everything before the first record that it can be of has retired. -/
theorem records_retired {p : Pipeline} (order : p.InOrder) {file done ahead : List TraceRecord}
    (split : file = done ++ ahead) (delivered : Log.delivered p.log = deliverables done) {inst : Inst}
    {tag q : Nat} (mem : (inst, tag) ∈ Log.retired p.log) {token : SyncToken}
    (sync : inst.syncToken = some token)
    (first : ∀ q' < q, ∀ r, file[q']? = some (.sync r) → r.token ≠ token) :
    deliverables (file.take q) <+: retiredRecords p.log := by
  have whole : Log.delivered p.log <+: deliverables file := by
    rw [delivered, split, deliverables, deliverables, List.filterMap_append]
    exact List.prefix_append ..
  have part : deliverables (file.take q) <+: deliverables file :=
    (List.take_prefix q file).filterMap deliverable
  have retired : (Log.retired p.log).map (·.1.syncToken) <+: (Log.delivered p.log).map (·.syncToken) := by
    have tokens := order.retired_prefix.map (·.syncToken)
    rw [order.delivered, List.map_map] at tokens
    exact tokens
  have short := retired.length_le
  rw [List.length_map, List.length_map] at short
  have enough : (deliverables (file.take q)).length ≤ (Log.retired p.log).length := by
    by_contra more
    -- Else the token that retired would have been delivered from before the place.
    have before : (Log.retired p.log).map (·.1.syncToken) <+:
        (deliverables (file.take q)).map (·.syncToken) :=
      List.prefix_of_prefix_length_le (retired.trans (whole.map _)) (part.map _)
        (by simpa using Nat.le_of_not_le more)
    have mem' : some token ∈ (Log.retired p.log).map (·.1.syncToken) :=
      List.mem_map.mpr ⟨(inst, tag), mem, sync⟩
    obtain ⟨r, earlier, same⟩ := token_source (before.subset mem')
    obtain ⟨q', bound, at_q'⟩ := List.getElem_of_mem earlier
    rw [List.length_take] at bound
    refine first q' (by omega) r ?_ same
    rw [← at_q', List.getElem_take, List.getElem?_eq_getElem]
  refine List.prefix_of_prefix_length_le part ((List.take_prefix ..).trans whole) ?_
  rw [retiredRecords, List.length_take]
  exact Nat.le_min.mpr ⟨enough, Nat.le_trans enough short⟩

/-- With a release, everything before its first occurrence has retired. -/
theorem Good.retired_before (good : Good traces s) {i q obj n : Nat}
    (first : ∀ q' < q, ¬ReleaseAt traces i q' obj n) (released : Released (s.cores i).log obj n) :
    deliverables ((traces i).take q) <+: retiredRecords (s.cores i).log := by
  obtain ⟨done, split, delivered, -⟩ := good.follows i
  obtain ⟨⟨inst, tag⟩, mem, token, sync, kind, obj_eq, number⟩ := released
  refine records_retired (good.order i) split delivered mem sync fun q' less r here same => ?_
  subst same
  exact first q' less ⟨r, here, kind, obj_eq, number⟩

theorem Good.excludes (good : Good traces s) (numbered : WellNumbered traces) {obj i j : Nat}
    (left : Inside traces s i obj) (right : Inside traces s j obj) : i = j := by
  obtain ⟨n, p, acquire, past, unreleased⟩ := left
  obtain ⟨m, q, acquire', past', unreleased'⟩ := right
  have reached := good.passed numbered acquire past
  have reached' := good.passed numbered acquire' past'
  -- The greater number has gone past only after the release of the smaller.
  rcases Nat.lt_trichotomy n m with less | rfl | less
  · obtain ⟨k, released⟩ := good.released obj n (by omega)
    obtain rfl := good.owner numbered acquire released
    exact absurd released unreleased
  · exact (numbered.distinct obj n i p j q acquire acquire').1
  · obtain ⟨k, released⟩ := good.released obj m (by omega)
    obtain rfl := good.owner numbered acquire' released
    exact absurd released unreleased'

/-- No record behind an acquire is delivered before everything before the release of
    the number before it has retired on that release's own core, and no two threads
    are inside a lock. A thread that releases twice is outside from the first time on. -/
theorem locks_exclude {numThreads : Nat} {cfg : Nat → OooConfig} {hardware : Nat → H.State}
    (numbered : WellNumbered traces)
    (run : (Threads.machine H).Reachable (Threads.start numThreads traces cfg hardware) s) :
    (∀ obj n i p j q, AcquireAt traces i p obj (n + 1) → ReleaseAt traces j q obj n →
      (∀ q' < q, ¬ReleaseAt traces j q' obj n) →
      (deliverables ((traces i).take p)).length < (Log.delivered (s.cores i).log).length →
      deliverables ((traces j).take q) <+: retiredRecords (s.cores j).log) ∧
    ∀ obj i j, Inside traces s i obj → Inside traces s j obj → i = j := by
  have good := good_run (H := H) (fun i => numbered.paired i) run
  refine ⟨fun obj n i p j q acquire release first delivered => ?_, fun obj i j =>
    good.excludes numbered⟩
  have past : p + (s.cores i).outside.reader.ahead.length < (traces i).length := by
    obtain ⟨done, split, records, -⟩ := good.follows i
    by_contra short
    have bound : done.length ≤ p := by
      have length := congrArg List.length split
      rw [List.length_append] at length
      omega
    have before : done <+: (traces i).take p := by
      rw [split, List.take_append]
      exact (List.take_of_length_le bound).symm ▸ List.prefix_append ..
    have fewer := (before.filterMap deliverable).length_le
    rw [records] at delivered
    exact absurd delivered (Nat.not_lt_of_le fewer)
  obtain ⟨k, released⟩ := good.released obj n (by
    have gate := good.passed numbered acquire past
    omega)
  obtain ⟨p', -, acquire'⟩ := numbered.acquire_before release
  obtain rfl := good.owner numbered acquire' released
  exact good.retired_before first released

/-! Two threads at one lock. -/

/-- A predictor that says "taken" and a cache that always hits. -/
def plainHardware : Hardware where
  State := Unit
  predict _ _ := (true, ())
  update _ _ _ := ()
  l1Full _ := false
  l1Ready _ _ := true
  l1Issue _ _ := .ok (some 1, ())
  l1Complete _ _ := ()
  l1Tick _ := ()

/-- Two threads that take one lock in turn, each around one instruction. -/
def twoThreads : Nat → List TraceRecord
  | 0 => [.sync { kind := .lockAcquire, syncObjectAddr := 7, sequenceNo := 0 }, .instr { ip := 4 } rfl,
      .sync { kind := .lockRelease, syncObjectAddr := 7, sequenceNo := 0 }]
  | 1 => [.sync { kind := .lockAcquire, syncObjectAddr := 7, sequenceNo := 1 }, .instr { ip := 8 } rfl,
      .sync { kind := .lockRelease, syncObjectAddr := 7, sequenceNo := 1 }]
  | _ => []

theorem twoThreads_acquire {i p obj n : Nat} : AcquireAt twoThreads i p obj n ↔
    p = 0 ∧ obj = 7 ∧ (i = 0 ∧ n = 0 ∨ i = 1 ∧ n = 1) := by
  unfold AcquireAt
  match i, p with
  | 0, 0 | 1, 0 => simp [twoThreads, eq_comm]
  | 0, 1 | 0, 2 | 0, _ + 3 | 1, 1 | 1, 2 | 1, _ + 3 | _ + 2, _ => simp [twoThreads]

theorem twoThreads_release {i q obj n : Nat} : ReleaseAt twoThreads i q obj n ↔
    q = 2 ∧ obj = 7 ∧ (i = 0 ∧ n = 0 ∨ i = 1 ∧ n = 1) := by
  unfold ReleaseAt
  match i, q with
  | 0, 2 | 1, 2 => simp [twoThreads, eq_comm]
  | 0, 0 | 0, 1 | 0, _ + 3 | 1, 0 | 1, 1 | 1, _ + 3 | _ + 2, _ => simp [twoThreads]

theorem twoThreads_numbered : WellNumbered twoThreads := by
  refine ⟨fun obj => ⟨if obj = 7 then 2 else 0, ?_, fun n => ?_⟩, fun obj n i p j q left right => ?_,
    fun i q obj n release => ?_⟩
  · split <;> omega
  · simp only [twoThreads_acquire]
    constructor
    · rintro ⟨i, p, -, rfl, ⟨-, rfl⟩ | ⟨-, rfl⟩⟩ <;> decide
    · intro below
      split at below
      · next here => exact ⟨n, 0, rfl, here, by omega⟩
      · omega
  · rw [twoThreads_acquire] at left right
    omega
  · rw [twoThreads_release] at release
    obtain ⟨rfl, rfl, ⟨rfl, rfl⟩ | ⟨rfl, rfl⟩⟩ := release <;> rfl

/-- Both cores tick in turn, the waiting one first. -/
def lockRun (n : Nat) : Threads plainHardware :=
  (Threads.machine plainHardware).attempt (Threads.start 2 twoThreads (fun _ => {}) fun _ => ())
    ((List.replicate n [.tick 1, .tick 0]).flatten)

/-- The second thread has read its file and retired nothing. -/
theorem lockRun_waited : (Log.delivered ((lockRun 6).cores 1).log).length = 2 ∧
    ((lockRun 6).cores 1).outside.reader.ahead.length = 0 ∧
    Log.retired ((lockRun 6).cores 1).log = [] := by
  refine ⟨?_, ?_, ?_⟩ <;> decide +kernel

theorem lockRun_excludes : (Log.delivered ((lockRun 6).cores 1).log).length = 2 ∧
    [{ ip := 4 }] <+: retiredRecords ((lockRun 6).cores 0).log ∧ ¬Inside twoThreads (lockRun 6) 0 7 := by
  obtain ⟨delivered, read, unreleased⟩ := lockRun_waited
  have run : (Threads.machine plainHardware).Reachable
      (Threads.start 2 twoThreads (fun _ => {}) fun _ => ()) (lockRun 6) :=
    Machine.reachable_attempt ..
  obtain ⟨waits, excludes⟩ := locks_exclude twoThreads_numbered run
  have acquire : AcquireAt twoThreads 1 0 7 1 := twoThreads_acquire.mpr (by decide)
  -- From here on the state is known by these facts alone.
  generalize lockRun 6 = s at delivered read unreleased waits excludes ⊢
  refine ⟨delivered, ?_, fun inside => ?_⟩
  · have first : ∀ q' < 2, ¬ReleaseAt twoThreads 0 q' 7 0 := fun q' less release => by
      rw [twoThreads_release] at release
      omega
    have behind : (deliverables ((twoThreads 1).take 0)).length <
        (Log.delivered (s.cores 1).log).length := by
      rw [delivered]
      decide
    have before := waits 7 0 1 0 0 2 acquire (twoThreads_release.mpr (by decide)) first behind
    have records : deliverables ((twoThreads 0).take 2) = [{ ip := 4 }] := rfl
    rwa [records] at before
  · have length : (twoThreads 1).length = 3 := rfl
    have inFile : 0 + (s.cores 1).outside.reader.ahead.length < (twoThreads 1).length :=
      (congrArg (0 + ·) read).trans_lt (length ▸ Nat.succ_pos 2)
    have other : Inside twoThreads s 1 7 := by
      refine ⟨1, 0, acquire, ?_, fun released => released.some_retired unreleased⟩
      exact inFile
    exact absurd (excludes 7 0 1 inside other) (by decide)

end Sync
