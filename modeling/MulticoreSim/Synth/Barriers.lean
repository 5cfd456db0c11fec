import MulticoreSim.Library.Rounds
import MulticoreSim.Sync.Replay
import MulticoreSim.Synth.Program

/-! # The numbers of barriers

A barrier numbers a crossing by how many calls came before it, of whichever
thread.
-/

namespace Synth

open Ooo (SyncKind OooConfig)
open Sync (TraceRecord SyncRecord Hardware Threads crossings crossings_append rounds Expects InTurn Deadlocked)
open Rounds (numbers numbers_snoc)

/-! ## Records and calls -/

/-- Neither an arrival nor a leave. -/
def Aside (r : TraceRecord) : Prop :=
  ∀ s, r = .sync s → s.kind ≠ .barrierArrive ∧ s.kind ≠ .barrierLeave

theorem Plain.aside {records : List TraceRecord} (plain : Plain records) : ∀ r ∈ records, Aside r := by
  intro r mem s same
  obtain ⟨i, _, instr⟩ := plain r mem
  cases instr.symm.trans same

theorem crossings_aside {more : List TraceRecord} (aside : ∀ r ∈ more, Aside r) (b : Nat) :
    crossings b more = [] := by
  apply List.filterMap_eq_nil_iff.mpr
  intro r mem
  cases r with
  | sync s =>
      apply if_neg
      rintro ⟨arrive | leave, -⟩
      · exact (aside _ mem s rfl).1 arrive
      · exact (aside _ mem s rfl).2 leave
  | instr | lifecycle | malformed => rfl

/-- The threads that cross the barrier, call by call. -/
def callers (b : Nat) (calls : List Call) : List Nat :=
  calls.filterMap fun a => (a.crossing.filter fun crossing => crossing.1 = b).map Prod.snd

theorem callers_snoc (b : Nat) (calls : List Call) (a : Call) :
    callers b (calls ++ [a]) = callers b calls ++
      ((a.crossing.filter fun crossing => crossing.1 = b).map Prod.snd).toList := by
  rw [callers, List.filterMap_append]
  cases found : (a.crossing.filter fun crossing => crossing.1 = b).map Prod.snd <;> simp [callers, found]

/-- The events of the crossings with these numbers. -/
def events (iters : List Nat) : List (SyncKind × Nat) :=
  iters.flatMap fun k => [(.barrierArrive, k), (.barrierLeave, k)]

theorem events_inj {xs ys : List Nat} (same : events xs = events ys) : xs = ys := by
  induction xs generalizing ys with
  | nil =>
      cases ys with
      | nil => rfl
      | cons y ys => cases same
  | cons x xs ih =>
      cases ys with
      | nil => cases same
      | cons y ys =>
          simp only [events, List.flatMap_cons, List.cons_append, List.nil_append, List.cons.injEq,
            Prod.mk.injEq, true_and] at same
          rw [same.1, ih same.2.2]

theorem events_append (xs ys : List Nat) : events (xs ++ ys) = events xs ++ events ys :=
  List.flatMap_append

/-! ## What a call adds -/

variable {p p' : Program} {a : Call}

/-- A call that crosses no barrier. -/
theorem Change.aside (change : Change p a p') (quiet : a.crossing = none) (i : Nat) :
    ∃ more, p'.traces i = p.traces i ++ more ∧ ∀ r ∈ more, Aside r := by
  have same : ∀ q : Program, q.threads = p.threads → ∃ more, q.traces i = p.traces i ++ more ∧
      ∀ r ∈ more, Aside r := fun q threads =>
    ⟨[], by rw [Program.traces, threads, List.append_nil]; rfl, nofun⟩
  have grown : ∀ tid st (more : List TraceRecord), st.records = p.traces tid ++ more →
      (∀ r ∈ more, Aside r) → ∃ more, (p.onThread tid fun _ => st).traces i = p.traces i ++ more ∧
        ∀ r ∈ more, Aside r := by
    intro tid st more records aside
    by_cases here : i = tid
    · subst here
      refine ⟨more, ?_, aside⟩
      rw [Program.traces, Program.onThread_self, records]
    · refine ⟨[], ?_, nofun⟩
      rw [Program.traces, Program.onThread_of_ne p _ here, List.append_nil]
      rfl
  have snoc : ∀ {more : List TraceRecord} {s : SyncRecord}, Plain more → s.kind ≠ .barrierArrive →
      s.kind ≠ .barrierLeave → ∀ r ∈ more ++ [.sync s], Aside r := by
    intro more s plain arrive leave r mem
    rcases List.mem_append.mp mem with instr | last
    · exact plain.aside r instr
    · rintro s' rfl
      cases List.mem_singleton.mp last
      exact ⟨arrive, leave⟩
  cases change with
  | idle => exact same _ rfl
  | mutex => exact same _ rfl
  | newBarrier => exact same _ rfl
  | @instrs _ tid st _ inside adds =>
      obtain ⟨more, plain, eq⟩ := adds.records
      exact grown tid st more eq plain.aside
  | @lock tid m seq st inside known adds =>
      obtain ⟨more, plain, eq⟩ := adds.records
      let s : SyncRecord :=
        { kind := .lockAcquire, syncObjectAddr := m, sequenceNo := seq, ip := st.nextPc }
      apply grown tid (st.acquire m seq) (more ++ [.sync s])
      · rw [← List.append_assoc]
        exact congrArg (· ++ [.sync s]) eq
      · exact snoc plain nofun nofun
  | @unlock tid m seq outer st inside innermost adds =>
      obtain ⟨more, plain, eq⟩ := adds.records
      let s : SyncRecord :=
        { kind := .lockRelease, syncObjectAddr := m, sequenceNo := seq, ip := st.nextPc }
      apply grown tid (st.release m seq) (more ++ [.sync s])
      · rw [← List.append_assoc]
        exact congrArg (· ++ [.sync s]) eq
      · exact snoc plain nofun nofun
  | barrier => cases quiet

/-- What a new barrier's arrivals are to expect, or 0. -/
def Program.expected (p : Program) (b : Nat) : Nat := ((p.barriers b).map (·.expected)).getD 0

/-- The barriers after a call that crosses none: at most a new one. -/
theorem Change.barriers (change : Change p a p') (quiet : a.crossing = none) (b : Nat) :
    p'.barriers b = p.barriers b ∨
      b = p.nextBarrierId ∧ b < p'.nextBarrierId ∧
        ∃ expected, 0 < expected ∧ p'.barriers b = some { expected } := by
  cases change with
  | idle | instrs | mutex | lock | unlock => exact .inl rfl
  | @newBarrier expected some enough =>
      by_cases new : b = p.nextBarrierId
      · exact .inr ⟨new, new ▸ Nat.lt_add_of_pos_right (by decide), expected, some,
          new ▸ Function.update_self ..⟩
      · exact .inl (Function.update_of_ne new ..)
  | barrier => cases quiet

theorem Change.nextBarrierId_le (change : Change p a p') : p.nextBarrierId ≤ p'.nextBarrierId := by
  cases change with
  | idle | instrs | mutex | lock | unlock | barrier => exact Nat.le_refl _
  | newBarrier => exact Nat.le_add_right ..

/-! ## The invariant -/

/-- A barrier that some calls have been made at. -/
structure Counts (bs : BarrierState) (calls : Nat) : Prop where
  inside : bs.arrivedThisIter < bs.expected
  total : bs.iter * bs.expected + bs.arrivedThisIter = calls

theorem Counts.iter {bs : BarrierState} {calls : Nat} (counts : Counts bs calls) :
    calls / bs.expected = bs.iter := by
  have some : 0 < bs.expected := Nat.zero_lt_of_lt counts.inside
  rw [← counts.total, Nat.mul_comm, Nat.mul_add_div some, Nat.div_eq_of_lt counts.inside, Nat.add_zero]

theorem Counts.arrive {bs : BarrierState} {calls : Nat} (counts : Counts bs calls) :
    bs.arrive.expected = bs.expected ∧ Counts bs.arrive (calls + 1) := by
  obtain ⟨inside, total⟩ := counts
  unfold BarrierState.arrive
  split
  · refine ⟨rfl, by dsimp only; omega, ?_⟩
    dsimp only
    rw [Nat.succ_mul]
    omega
  · refine ⟨rfl, by dsimp only; omega, ?_⟩
    dsimp only
    omega

/-- What the calls so far have made of a barrier and its records. -/
structure Booked (b : Nat) (calls : List Call) (p : Program) : Prop where
  fresh : p.barriers b ≠ none → b < p.nextBarrierId
  unused : p.barriers b = none → callers b calls = []
  counts : ∀ bs, p.barriers b = some bs → Counts bs (callers b calls).length
  files : ∀ i, crossings b (p.traces i) = events (numbers (p.expected b) i (callers b calls))
  expects : ∀ i, Expects b (p.expected b) (p.traces i)

theorem expects_append {b total : Nat} {xs ys : List TraceRecord} (expects : Expects b total xs)
    (expects' : Expects b total ys) : Expects b total (xs ++ ys) := by
  intro s mem
  exact (List.mem_append.mp mem).elim (expects s) (expects' s)

/-- Nothing is expected of records without crossings. -/
theorem expects_of_none {b : Nat} {records : List TraceRecord} (none : crossings b records = [])
    (total : Nat) : Expects b total records := by
  intro s mem arrive here
  have found : (s.kind, s.sequenceNo) ∈ crossings b records :=
    List.mem_filterMap.mpr ⟨_, mem, by simp [arrive, here]⟩
  rw [none] at found
  cases found

/-- The records of one crossing. -/
def crossed (b : Nat) (bs : BarrierState) (pc : Nat) : List TraceRecord :=
  [.sync { kind := .barrierArrive, syncObjectAddr := b, sequenceNo := bs.iter, extraArg := bs.expected
           ip := pc },
    .sync { kind := .barrierLeave, syncObjectAddr := b, sequenceNo := bs.iter, ip := pc + 4 }]

theorem cross_records (st : ThreadState) (b : Nat) (bs : BarrierState) :
    (st.cross b bs).records = st.records ++ crossed b bs st.nextPc := List.append_assoc ..

theorem crossings_crossed (b b' : Nat) (bs : BarrierState) (pc : Nat) :
    crossings b (crossed b' bs pc) = if b' = b then events [bs.iter] else [] := by
  by_cases here : b' = b <;> simp [crossings, crossed, here, events]

theorem expects_crossed (b : Nat) (bs : BarrierState) (pc : Nat) :
    Expects b bs.expected (crossed b bs pc) := by
  intro s mem arrive
  simp only [crossed, List.mem_cons, TraceRecord.sync.injEq, List.not_mem_nil, or_false] at mem
  rcases mem with rfl | rfl
  · exact fun _ => rfl
  · cases arrive

namespace Booked

variable {b : Nat} {calls : List Call}

/-- A call at no barrier, or at another one. -/
theorem extend (booked : Booked b calls p) (later : p.nextBarrierId ≤ p'.nextBarrierId)
    (same : p'.barriers b = p.barriers b) (quiet : callers b (calls ++ [a]) = callers b calls)
    (files : ∀ i, ∃ more, p'.traces i = p.traces i ++ more ∧ crossings b more = []) :
    Booked b (calls ++ [a]) p' := by
  have expected : p'.expected b = p.expected b := by rw [Program.expected, same]; rfl
  refine ⟨fun known => ?_, fun none => ?_, fun bs known => ?_, fun i => ?_, fun i => ?_⟩
  · exact Nat.lt_of_lt_of_le (booked.fresh (same ▸ known)) later
  · rw [quiet]
    exact booked.unused (same ▸ none)
  · rw [quiet]
    exact booked.counts bs (same ▸ known)
  · obtain ⟨more, records, none⟩ := files i
    rw [records, crossings_append, none, List.append_nil, quiet, expected]
    exact booked.files i
  · obtain ⟨more, records, none⟩ := files i
    rw [records, expected]
    exact expects_append (booked.expects i) (expects_of_none none _)

/-- A new barrier. -/
theorem begin_ {expected : Nat} (none : callers b calls = []) (fresh : b < p.nextBarrierId)
    (some : 0 < expected) (known : p.barriers b = Option.some { expected })
    (files : ∀ i, crossings b (p.traces i) = []) : Booked b calls p := by
  refine ⟨fun _ => fresh, fun absent => ?_, fun bs present => ?_, fun i => ?_, fun i => ?_⟩
  · rw [known] at absent
    cases absent
  · rw [known] at present
    cases present
    rw [none]
    exact ⟨some, Nat.zero_mul _⟩
  · rw [files, none]
    rfl
  · exact expects_of_none (files i) _

theorem change_quiet (booked : Booked b calls p) (change : Change p a p') (quiet : a.crossing = none) :
    Booked b (calls ++ [a]) p' := by
  have same : callers b (calls ++ [a]) = callers b calls := by
    rw [callers_snoc, quiet]
    exact List.append_nil _
  rcases change.barriers quiet b with kept | ⟨new, fresh, expected, some, known⟩
  · apply booked.extend change.nextBarrierId_le kept same
    intro i
    obtain ⟨more, records, aside⟩ := change.aside quiet i
    exact ⟨more, records, crossings_aside aside b⟩
  · have absent : p.barriers b = none := by
      by_contra present
      have less := booked.fresh present
      omega
    have none := booked.unused absent
    apply begin_ (same.trans none) fresh some known
    intro i
    obtain ⟨more, records, aside⟩ := change.aside quiet i
    rw [records, crossings_append, crossings_aside aside, booked.files, none]
    rfl

/-- A crossing, of this barrier or of another one. -/
theorem change_barrier {tid b' : Nat} {bs : BarrierState} (booked : Booked b calls p)
    (known : p.barriers b' = some bs) : Booked b (calls ++ [.barrier tid b']) { p.onThread tid (·.cross b' bs)
      with barriers := Function.update p.barriers b' (some bs.arrive) } := by
  have records : ∀ i, ∃ more, ((p.onThread tid (·.cross b' bs)).threads i).records = p.traces i ++ more ∧
      crossings b more = (if tid = i then if b' = b then events [bs.iter] else [] else []) ∧
      (b' = b → Expects b bs.expected more) := by
    intro i
    by_cases own : i = tid
    · subst own
      refine ⟨crossed b' bs (p.threads i).nextPc, ?_, ?_, ?_⟩
      · rw [Program.onThread_self, cross_records]
        rfl
      · rw [if_pos rfl, crossings_crossed]
      · rintro rfl
        exact expects_crossed b' bs _
    · refine ⟨[], ?_, ?_, fun _ => nofun⟩
      · rw [Program.onThread_of_ne p _ own, List.append_nil]
        rfl
      · rw [if_neg (Ne.symm own)]
        rfl
  have next := callers_snoc b calls (.barrier tid b')
  by_cases here : b' = b
  · subst here
    have counts := booked.counts bs known
    have expected : p.expected b' = bs.expected := by rw [Program.expected, known]; rfl
    simp only [Call.crossing, Option.filter_some, decide_true, if_true, Option.map_some,
      Option.toList_some] at next
    have updated : Function.update p.barriers b' (some bs.arrive) b' = some bs.arrive :=
      Function.update_self ..
    have expected' : Program.expected { p.onThread tid (·.cross b' bs) with
        barriers := Function.update p.barriers b' (some bs.arrive) } b' = bs.expected := by
      rw [Program.expected]
      dsimp only
      rw [updated]
      exact counts.arrive.1
    refine ⟨fun _ => booked.fresh (by simp [known]), fun absent => ?_, fun bs' present => ?_, fun i => ?_,
      fun i => ?_⟩
    · exact absurd (updated.symm.trans absent) nofun
    · cases updated.symm.trans present
      rw [next, List.length_append]
      exact counts.arrive.2
    · obtain ⟨more, split, added, -⟩ := records i
      have files := booked.files i
      rw [expected] at files
      rw [expected', next, numbers_snoc, counts.iter, events_append, ← files]
      refine (congrArg (crossings b') split).trans ?_
      rw [crossings_append, added, if_pos rfl]
      by_cases own : tid = i <;> simp [own, events]
    · obtain ⟨more, split, -, expects⟩ := records i
      have before := booked.expects i
      rw [expected] at before
      rw [expected']
      exact (show Program.traces _ i = _ from split) ▸ expects_append before (expects rfl)
  · refine booked.extend ?_ ?_ ?_ ?_
    · exact Nat.le_refl _
    · exact Function.update_of_ne (Ne.symm here) ..
    · rw [next]
      simp [Call.crossing, here]
    · intro i
      obtain ⟨more, split, added, -⟩ := records i
      refine ⟨more, split, ?_⟩
      rw [added, if_neg here, ite_self]

theorem change (booked : Booked b calls p) (change : Change p a p') : Booked b (calls ++ [a]) p' := by
  cases change with
  | idle quiet => exact booked.change_quiet (.idle quiet) quiet
  | instrs quiet inside adds => exact booked.change_quiet (.instrs quiet inside adds) quiet
  | mutex => exact booked.change_quiet .mutex rfl
  | newBarrier some enough => exact booked.change_quiet (.newBarrier some enough) rfl
  | lock inside known adds => exact booked.change_quiet (.lock inside known adds) rfl
  | unlock inside innermost adds => exact booked.change_quiet (.unlock inside innermost adds) rfl
  | barrier inside known => exact booked.change_barrier known

theorem run {threads : Nat} (built : build threads calls = .ok p) : Booked b calls p := by
  obtain ⟨start, made, ran⟩ := bind_ok built
  apply Machine.exec_history ran
  · unfold Program.make at made
    split at made
    · cases made
    · cases made
      exact ⟨fun known => absurd rfl known, fun _ => rfl, nofun, fun i => rfl, fun i => nofun⟩
  · intro done p a p' booked stepped
    exact booked.change (builder_change stepped)

end Booked

/-! ## Crossings in turn -/

/-- Every participant's crossings carry the numbers from zero on, and no replay deadlocks
    on the barrier, if and only if nobody calls twice in a round. -/
theorem barrier_numbered {threads : Nat} {calls : List Call} {p : Program}
    (built : build threads calls = .ok p) {b : Nat} {bs : BarrierState} (known : p.barriers b = some bs)
    {participants : Finset Nat} {count : Nat} (expected : participants.card = bs.expected)
    (equal : ∀ i ∈ participants, (callers b calls).count i = count)
    (others : ∀ i ∈ callers b calls, i ∈ participants) :
    ((∀ i ∈ participants, crossings b (p.traces i) = rounds count) ∧
      ∀ (H : Hardware) (numThreads : Nat) (cfg : Nat → OooConfig) (hardware : Nat → H.State)
        (s : Threads H),
        (Threads.machine H).Reachable (Threads.start numThreads p.traces cfg hardware) s →
        ¬Deadlocked s b participants) ↔
    ∀ r, (Rounds.round bs.expected r (callers b calls)).Nodup := by
  have booked : Booked b calls p := Booked.run built
  have counts := booked.counts bs known
  have some : 0 < bs.expected := Nat.zero_lt_of_lt counts.inside
  have even : Rounds.Even bs.expected count participants (callers b calls) := ⟨expected, equal, others⟩
  have expects : p.expected b = bs.expected := by rw [Program.expected, known]; rfl
  have files := booked.files
  rw [expects] at files
  rw [← even.numbers_eq_range some]
  constructor
  · intro ⟨inTurn, _⟩ i mem
    exact events_inj ((files i).symm.trans (inTurn i mem))
  · intro inTurn
    have each : ∀ i ∈ participants, crossings b (p.traces i) = rounds count := by
      intro i mem
      rw [files, inTurn i mem]
      rfl
    refine ⟨each, fun H numThreads cfg hardware s run => ?_⟩
    have turn : InTurn p.traces b participants count := by
      refine ⟨each, fun i stranger => ?_, fun i => ?_⟩
      · rw [files, even.numbers_of_stranger stranger]
        rfl
      · rw [expected, ← expects]
        exact booked.expects i
    exact Sync.barrier_never_deadlocks turn run

/-! Two threads that cross one barrier twice. -/

/-- The program that two threads' calls describe. -/
def described (calls : List Call) : Program :=
  (build 2 calls).toOption.getD { threadCount := 0, threads := fun _ => {} }

theorem built_described {calls : List Call} (some : (build 2 calls).toOption.isSome = true) :
    build 2 calls = .ok (described calls) := by
  unfold described
  cases built : build 2 calls with
  | error what =>
      rw [built] at some
      cases some
  | ok p => rfl

/-- In turns. -/
def turnByTurn : List Call :=
  [.newBarrier 2, .barrier 0 0x900000, .barrier 1 0x900000, .barrier 1 0x900000, .barrier 0 0x900000]

theorem barrier_numbered_turns : ∃ p, build 2 turnByTurn = .ok p ∧
    (∀ i ∈ ({0, 1} : Finset Nat), crossings 0x900000 (p.traces i) = rounds 2) ∧
    ∀ s, (Threads.machine Sync.plainHardware).Reachable
        (Threads.start 2 p.traces (fun _ => {}) fun _ => ()) s → ¬Deadlocked s 0x900000 {0, 1} := by
  have built : build 2 turnByTurn = .ok (described turnByTurn) := built_described (by decide +kernel)
  have known : (described turnByTurn).barriers 0x900000 = some { expected := 2, iter := 2 } := by
    decide +kernel
  have equal : ∀ i ∈ ({0, 1} : Finset Nat), (callers 0x900000 turnByTurn).count i = 2 := by decide
  have apart : ∀ r, (Rounds.round 2 r (callers 0x900000 turnByTurn)).Nodup := by
    intro r
    match r with
    | 0 | 1 => decide
    | r + 2 =>
        rw [Rounds.round, List.drop_eq_nil_of_le, List.take_nil]
        · exact .nil
        · change 4 ≤ _
          omega
  obtain ⟨inTurn, free⟩ := (barrier_numbered built known (by decide) equal (by decide)).mpr apart
  exact ⟨_, built, inTurn, fun s run => free _ 2 _ _ s run⟩

/-- One whole thread after the other. -/
def wholeThreads : List Call :=
  [.newBarrier 2, .barrier 0 0x900000, .barrier 0 0x900000, .barrier 1 0x900000, .barrier 1 0x900000]

/-- Both cores tick in turn. -/
def wholeRun (n : Nat) : Threads Sync.plainHardware :=
  (Threads.machine Sync.plainHardware).attempt
    (Threads.start 2 (described wholeThreads).traces (fun _ => {}) fun _ => ())
    ((List.replicate n [.tick 0, .tick 1]).flatten)

/-- What thread `i` waits for. -/
def held (s : Threads Sync.plainHardware) (i : Nat) : Option (SyncKind × Nat × Nat) :=
  (s.cores i).outside.reader.pendingSync.map fun l => (l.kind, l.syncObjectAddr, l.sequenceNo)

/-- The first thread waits for a second arrival in the first iteration, the second one in
    the second. -/
theorem wholeRun_stuck : held (wholeRun 8) 0 = some (.barrierLeave, 0x900000, 0) ∧
    held (wholeRun 8) 1 = some (.barrierLeave, 0x900000, 1) ∧
    (wholeRun 8).coordinator.barriers 0x900000 0 = { expected := 2, arrived := 1 } ∧
    (wholeRun 8).coordinator.barriers 0x900000 1 = { expected := 2, arrived := 1 } ∧
    ∀ i < 2, (Ooo.Log.retired ((wholeRun 8).cores i).log).length =
      (Ooo.Log.delivered ((wholeRun 8).cores i).log).length := by
  decide +kernel

theorem barrier_deadlocks : ∃ p, build 2 wholeThreads = .ok p ∧
    (p.barriers 0x900000).map (·.expected) = some 2 ∧
    (∀ i ∈ ({0, 1} : Finset Nat), (callers 0x900000 wholeThreads).count i = 2) ∧
    crossings 0x900000 (p.traces 1) ≠ rounds 2 ∧
    ∃ s, (Threads.machine Sync.plainHardware).Reachable
        (Threads.start 2 p.traces (fun _ => {}) fun _ => ()) s ∧ Deadlocked s 0x900000 {0, 1} := by
  have built : build 2 wholeThreads = .ok (described wholeThreads) := built_described (by decide +kernel)
  refine ⟨_, built, by decide +kernel, by decide, by decide +kernel, wholeRun 8,
    Machine.reachable_attempt _ _, ?_⟩
  obtain ⟨first, second, iter₀, iter₁, drained⟩ := wholeRun_stuck
  -- From here on the state is known by these facts alone.
  generalize wholeRun 8 = s at first second iter₀ iter₁ drained
  have waits₀ : Sync.Waits s 0x900000 0 0 := by
    obtain ⟨l, here, same⟩ := Option.map_eq_some_iff.mp first
    simp only [Prod.mk.injEq] at same
    refine ⟨l, here, same.1, same.2.1, same.2.2, ?_⟩
    rw [iter₀]
    exact fun full => absurd full.2 (by decide)
  have waits₁ : Sync.Waits s 0x900000 1 1 := by
    obtain ⟨l, here, same⟩ := Option.map_eq_some_iff.mp second
    simp only [Prod.mk.injEq] at same
    refine ⟨l, here, same.1, same.2.1, same.2.2, ?_⟩
    rw [iter₁]
    exact fun full => absurd full.2 (by decide)
  have two : ∀ i ∈ ({0, 1} : Finset Nat), i = 0 ∨ i = 1 := by decide
  refine ⟨⟨0, by decide, 0, waits₀⟩, fun i mem => ?_, fun i mem => .inl ?_⟩
  · apply drained
    have small := two i mem
    omega
  · rcases two i mem with rfl | rfl
    · exact ⟨0, waits₀⟩
    · exact ⟨1, waits₁⟩

end Synth
