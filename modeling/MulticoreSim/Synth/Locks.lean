import MulticoreSim.Sync.Exclusion
import MulticoreSim.Synth.Program

/-! # The numbers of locks

A mutex counts its acquires over all threads. A thread keeps what it holds on a
stack, and a release takes its number from the top.
-/

namespace Synth

open Ooo (SyncKind)
open Sync (TraceRecord SyncRecord acquired)

/-! ## Acquires and releases of a file -/

/-- The numbers that some records release a lock with, in order. -/
def released (obj : Nat) (records : List TraceRecord) : List Nat :=
  records.filterMap fun
    | .sync s => if s.kind = .lockRelease ∧ s.syncObjectAddr = obj then some s.sequenceNo else none
    | _ => none

/-- A release closes the acquire that was opened last, whatever its number. -/
def touch (obj : Nat) (opened : List Nat) : TraceRecord → List Nat
  | .sync s =>
      if s.kind = .lockAcquire ∧ s.syncObjectAddr = obj then s.sequenceNo :: opened
      else if s.kind = .lockRelease ∧ s.syncObjectAddr = obj then opened.tail
      else opened
  | _ => opened

/-- The numbers of the acquires that are still open, the innermost first. -/
def opened (obj : Nat) (records : List TraceRecord) : List Nat := records.foldl (touch obj) []

/-- Each release carries the number of the innermost open acquire before it. -/
def Matched (records : List TraceRecord) : Prop :=
  ∀ before s after, records = before ++ .sync s :: after → s.kind = .lockRelease →
    (opened s.syncObjectAddr before).head? = some s.sequenceNo

/-- Neither an acquire nor a release. -/
def Neutral (r : TraceRecord) : Prop :=
  ∀ s, r = .sync s → s.kind ≠ .lockAcquire ∧ s.kind ≠ .lockRelease

section

variable {obj : Nat} {xs more : List TraceRecord} {r : TraceRecord}

theorem acquired_append (obj : Nat) (xs ys : List TraceRecord) :
    acquired obj (xs ++ ys) = acquired obj xs ++ acquired obj ys := List.filterMap_append

theorem released_append (obj : Nat) (xs ys : List TraceRecord) :
    released obj (xs ++ ys) = released obj xs ++ released obj ys := List.filterMap_append

theorem opened_snoc (obj : Nat) (xs : List TraceRecord) (r : TraceRecord) :
    opened obj (xs ++ [r]) = touch obj (opened obj xs) r := List.foldl_append

theorem Neutral.touch (neutral : Neutral r) (numbers : List Nat) : touch obj numbers r = numbers := by
  cases r with
  | sync s =>
      obtain ⟨acquire, release⟩ := neutral s rfl
      simp only [Synth.touch, acquire, release, false_and, if_false]
  | instr | lifecycle | malformed => rfl

theorem acquired_neutral (neutral : ∀ r ∈ more, Neutral r) : acquired obj more = [] := by
  apply List.filterMap_eq_nil_iff.mpr
  intro r mem
  cases r with
  | sync s => exact if_neg fun both => (neutral _ mem s rfl).1 both.1
  | instr | lifecycle | malformed => rfl

theorem Plain.neutral {records : List TraceRecord} (plain : Plain records) : ∀ r ∈ records, Neutral r := by
  intro r mem s same
  obtain ⟨i, _, instr⟩ := plain r mem
  cases instr.symm.trans same

theorem opened_neutral (neutral : ∀ r ∈ more, Neutral r) : opened obj (xs ++ more) = opened obj xs := by
  induction more using List.reverseRecOn with
  | nil => rw [List.append_nil]
  | append_singleton more r ih =>
      rw [← List.append_assoc, opened_snoc, (neutral r (by simp)).touch]
      exact ih fun r mem => neutral r (List.mem_append_left _ mem)

theorem Matched.snoc (matched : Matched xs)
    (last : ∀ s, r = .sync s → s.kind = .lockRelease →
      (opened s.syncObjectAddr xs).head? = some s.sequenceNo) : Matched (xs ++ [r]) := by
  intro before s after split release
  cases after using List.reverseRecOn with
  | nil =>
      obtain ⟨rfl, same⟩ := List.append_inj' split rfl
      exact last s (List.head_eq_of_cons_eq same) release
  | append_singleton after z =>
      rw [← List.cons_append, ← List.append_assoc] at split
      obtain ⟨same, -⟩ := List.append_inj' split rfl
      exact matched before s after same release

theorem Matched.neutral (matched : Matched xs) (neutral : ∀ r ∈ more, Neutral r) :
    Matched (xs ++ more) := by
  induction more using List.reverseRecOn with
  | nil => rwa [List.append_nil]
  | append_singleton more r ih =>
      rw [← List.append_assoc]
      apply Matched.snoc
      · exact ih fun r mem => neutral r (List.mem_append_left _ mem)
      · intro s same release
        exact absurd release (neutral r (by simp) s same).2

/-- Every acquire is open or has been released. -/
theorem Matched.perm (matched : Matched xs) (obj : Nat) :
    (acquired obj xs).Perm (opened obj xs ++ released obj xs) := by
  induction xs using List.reverseRecOn with
  | nil => exact .nil
  | append_singleton xs r ih =>
      have before : Matched xs := fun before s after split release =>
        matched before s (after ++ [r]) (by rw [split, List.append_assoc, List.cons_append]) release
      rw [acquired_append, released_append, opened_snoc]
      have ih := ih before
      cases r with
      | instr | lifecycle | malformed => simpa [acquired, released, touch] using ih
      | sync s =>
          by_cases acquire : s.kind = .lockAcquire ∧ s.syncObjectAddr = obj
          · have closed : ¬(s.kind = .lockRelease ∧ s.syncObjectAddr = obj) := by
              rw [acquire.1]
              exact fun both => nomatch both.1
            simp only [touch, acquired, released, List.filterMap_cons, List.filterMap_nil,
              if_pos acquire, if_neg closed, List.append_nil]
            exact (List.perm_append_singleton ..).trans (ih.cons _)
          · by_cases release : s.kind = .lockRelease ∧ s.syncObjectAddr = obj
            · have top := matched xs s [] rfl release.1
              rw [release.2] at top
              obtain ⟨outer, stack⟩ := List.head?_eq_some_iff.mp top
              rw [stack] at ih
              simp only [touch, acquired, released, List.filterMap_cons, List.filterMap_nil,
                if_neg acquire, if_pos release, stack, List.append_nil, List.tail_cons]
              refine ih.trans ?_
              rw [List.cons_append, ← List.append_assoc]
              exact (List.perm_append_singleton ..).symm
            · simpa only [touch, acquired, released, List.filterMap_cons, List.filterMap_nil,
                if_neg acquire, if_neg release, List.append_nil] using ih

end

/-! ## One thread -/

/-- A thread's stack holds its open acquires. -/
structure ThreadState.Books (st : ThreadState) : Prop where
  held : ∀ m, (st.heldLocks.filter (·.1 = m)).map (·.2) = opened m st.records
  matched : Matched st.records

namespace ThreadState

variable {st st' : ThreadState} {m seq : Nat}

theorem Books.extend (books : st.Books) {more : List TraceRecord} (neutral : ∀ r ∈ more, Neutral r)
    (records : st'.records = st.records ++ more) (held : st'.heldLocks = st.heldLocks) : st'.Books := by
  refine ⟨fun m => ?_, ?_⟩
  · rw [held, books.held, records, opened_neutral neutral]
  · rw [records]
    exact books.matched.neutral neutral

theorem Books.adds (books : st.Books) (adds : st.Adds st') : st'.Books := by
  obtain ⟨more, plain, eq⟩ := adds.records
  exact books.extend plain.neutral eq adds.held

theorem Books.acquire (books : st.Books) (m seq : Nat) : (st.acquire m seq).Books where
  held m' := by
    rw [ThreadState.acquire, sync, opened_snoc, List.filter_cons]
    by_cases same : m = m'
    · simp [same, touch, books.held]
    · simp [same, touch, books.held]
  matched := books.matched.snoc fun s same release => by
    cases same
    cases release

/-- The record of a release, for the stack with the lock still on it. -/
theorem Books.release (books : st.Books) {outer : List (Nat × Nat)} (innermost : st.heldLocks = (m, seq) :: outer)
    (adds : ({ st with heldLocks := outer } : ThreadState).Adds st') : (st'.release m seq).Books := by
  obtain ⟨more, plain, eq⟩ := adds.records
  have neutral := plain.neutral
  have stack : ∀ m', opened m' st'.records = ((if m = m' then [seq] else []) ++
      (outer.filter (·.1 = m')).map (·.2)) := by
    intro m'
    rw [eq, opened_neutral neutral, ← books.held, innermost, List.filter_cons]
    by_cases same : m = m' <;> simp [same]
  refine ⟨fun m' => ?_, ?_⟩
  · rw [ThreadState.release, sync, opened_snoc, stack, adds.held]
    by_cases same : m = m' <;> simp [same, touch]
  · apply Matched.snoc
    · rw [eq]
      exact books.matched.neutral neutral
    · intro s same _
      cases same
      rw [stack]
      simp

theorem cross_records (st : ThreadState) (b : Nat) (bs : BarrierState) :
    ∃ more, (st.cross b bs).records = st.records ++ more ∧ ∀ r ∈ more, Neutral r := by
  refine ⟨[_, _], List.append_assoc .., ?_⟩
  simp only [List.forall_mem_cons, List.not_mem_nil, false_implies, implies_true, and_true]
  constructor
  · rintro s ⟨⟩
    exact ⟨nofun, nofun⟩
  · rintro s ⟨⟩
    exact ⟨nofun, nofun⟩

theorem Books.cross (books : st.Books) (b : Nat) (bs : BarrierState) : (st.cross b bs).Books := by
  obtain ⟨more, records, neutral⟩ := st.cross_records b bs
  exact books.extend neutral records rfl

end ThreadState

/-! ## All threads -/

/-- One of the lists grows at its end. -/
theorem flatMap_grow {α β : Type} {l : List α} (nodup : l.Nodup) {i : α} (mem : i ∈ l)
    {f g : α → List β} {more : List β} (here : g i = f i ++ more) (other : ∀ j ≠ i, g j = f j) :
    (l.flatMap g).Perm (l.flatMap f ++ more) := by
  induction l with
  | nil => cases mem
  | cons j rest ih =>
      obtain ⟨new, nodup⟩ := List.nodup_cons.mp nodup
      rw [List.flatMap_cons, List.flatMap_cons]
      by_cases first : j = i
      · subst first
        have same : rest.flatMap g = rest.flatMap f :=
          List.flatMap_congr fun k mem => other k fun eq => new (eq ▸ mem)
        rw [here, same, List.append_assoc, List.append_assoc]
        exact List.perm_append_comm.append_left _
      · rw [other j first, List.append_assoc]
        apply List.Perm.append_left
        exact ih nodup (List.mem_of_ne_of_mem (Ne.symm first) mem)

theorem flatMap_subperm {α β : Type} {l : List α} {f g : α → List β} (sub : ∀ i, (f i).Subperm (g i)) :
    (l.flatMap f).Subperm (l.flatMap g) := by
  induction l with
  | nil => exact List.Subperm.refl _
  | cons i rest ih => exact (sub i).append ih

/-- The numbers of a mutex's acquires over all threads. -/
def Program.acquires (p : Program) (m : Nat) : List Nat :=
  (List.range p.threadCount).flatMap fun i => acquired m (p.traces i)

/-- The invariant of the calls. -/
structure Numbered (p : Program) : Prop where
  books : ∀ i, (p.threads i).Books
  /-- A new mutex is none that is in use. -/
  fresh : ∀ m seq, p.nextLockSeq m = some seq → m < p.nextMutexId
  numbers : ∀ m, (p.acquires m).Perm (List.range ((p.nextLockSeq m).getD 0))

namespace Numbered

variable {p p' : Program} {tid : Nat} {st : ThreadState}

theorem thread (numbered : Numbered p) (books : st.Books) (i : Nat) :
    ((p.onThread tid fun _ => st).threads i).Books := by
  by_cases here : i = tid
  · subst here
    rw [Program.onThread_self]
    exact books
  · rw [Program.onThread_of_ne p _ here]
    exact numbered.books i

/-- What a thread's new records do to the acquires of a mutex. -/
theorem acquires_onThread (inside : tid < p.threadCount) {m : Nat} {numbers : List Nat}
    (more : acquired m st.records = acquired m (p.traces tid) ++ numbers) :
    ((p.onThread tid fun _ => st).acquires m).Perm (p.acquires m ++ numbers) := by
  apply flatMap_grow List.nodup_range (List.mem_range.mpr inside)
  · rw [Program.traces, Program.onThread_self, more]
  · intro j diff
    rw [Program.traces, Program.onThread_of_ne p _ diff]
    rfl

/-- A thread's records without acquires. -/
theorem extend (numbered : Numbered p) (inside : tid < p.threadCount) (books : st.Books)
    (none : ∀ m, acquired m st.records = acquired m (p.traces tid)) :
    Numbered (p.onThread tid fun _ => st) := by
  refine ⟨numbered.thread books, numbered.fresh, fun m => ?_⟩
  have grown : acquired m st.records = acquired m (p.traces tid) ++ [] := by rw [none, List.append_nil]
  have same := acquires_onThread inside grown
  rw [List.append_nil] at same
  exact same.trans (numbered.numbers m)

theorem change {a : Call} (numbered : Numbered p) (change : Change p a p') : Numbered p' := by
  cases change with
  | idle => exact ⟨numbered.books, numbered.fresh, numbered.numbers⟩
  | newBarrier => exact ⟨numbered.books, numbered.fresh, numbered.numbers⟩
  | @instrs _ tid st _ inside adds =>
      obtain ⟨more, plain, eq⟩ := adds.records
      apply numbered.extend inside ((numbered.books tid).adds adds)
      intro m
      rw [eq, acquired_append, acquired_neutral plain.neutral, List.append_nil]
      rfl
  | mutex =>
      have unused : p.nextLockSeq p.nextMutexId = none := by
        cases known : p.nextLockSeq p.nextMutexId with
        | none => rfl
        | some seq => exact absurd (numbered.fresh _ _ known) (Nat.lt_irrefl _)
      refine ⟨numbered.books, fun m seq known => ?_, fun m => ?_⟩
      · simp only [Program.mutex] at known ⊢
        by_cases new : m = p.nextMutexId
        · omega
        · rw [Function.update_of_ne new] at known
          have old := numbered.fresh m seq known
          omega
      · refine (numbered.numbers m).trans (.of_eq ?_)
        simp only [Program.mutex]
        by_cases new : m = p.nextMutexId
        · rw [new, Function.update_self, unused]
          rfl
        · rw [Function.update_of_ne new]
  | @lock tid m seq st inside known adds =>
      obtain ⟨more, plain, eq⟩ := adds.records
      have numbers : ∀ m', acquired m' (st.acquire m seq).records =
          acquired m' (p.traces tid) ++ if m = m' then [seq] else [] := by
        intro m'
        rw [ThreadState.acquire, ThreadState.sync, eq, acquired_append, acquired_append,
          acquired_neutral plain.neutral, List.append_nil]
        by_cases same : m = m' <;> simp [acquired, same, Program.traces]
      refine ⟨numbered.thread (((numbered.books tid).adds adds).acquire m seq), fun m' seq' known' => ?_,
        fun m' => ?_⟩
      · by_cases same : m' = m
        · exact same ▸ numbered.fresh m seq known
        · have known' : Function.update p.nextLockSeq m (some (seq + 1)) m' = some seq' := known'
          rw [Function.update_of_ne same] at known'
          exact numbered.fresh m' seq' known'
      · refine (acquires_onThread inside (numbers m')).trans ?_
        change List.Perm _ (List.range ((Function.update p.nextLockSeq m (some (seq + 1)) m').getD 0))
        by_cases same : m = m'
        · subst same
          rw [if_pos rfl, Function.update_self, Option.getD_some, List.range_succ]
          have before := numbered.numbers m
          rw [known, Option.getD_some] at before
          exact before.append_right _
        · rw [if_neg same, List.append_nil, Function.update_of_ne (Ne.symm same)]
          exact numbered.numbers m'
  | @unlock tid m seq outer st inside innermost adds =>
      obtain ⟨more, plain, eq⟩ := adds.records
      apply numbered.extend inside ((numbered.books tid).release innermost adds)
      intro m'
      rw [ThreadState.release, ThreadState.sync, eq, acquired_append, acquired_append,
        acquired_neutral plain.neutral, List.append_nil]
      exact List.append_nil _
  | @barrier tid b bs inside known =>
      obtain ⟨more, records, neutral⟩ := (p.threads tid).cross_records b bs
      have kept := numbered.extend inside ((numbered.books tid).cross b bs) (fun m => by
        rw [records, acquired_append, acquired_neutral neutral, List.append_nil]
        rfl)
      exact ⟨kept.books, kept.fresh, kept.numbers⟩

theorem run {threads : Nat} {calls : List Call} (built : build threads calls = .ok p) : Numbered p := by
  obtain ⟨start, made, ran⟩ := bind_ok built
  apply (Machine.reachable_of_exec ran).invariant
  · unfold Program.make at made
    split at made
    · cases made
    · cases made
      refine ⟨fun i => ⟨fun m => rfl, fun before s after split => ?_⟩, nofun, fun m => ?_⟩
      · exact absurd split (by simp)
      · apply List.Perm.of_eq
        exact List.flatMap_eq_nil_iff.mpr fun i _ => rfl
  · intro p a p' numbered _ stepped
    exact numbered.change (builder_change stepped)

end Numbered

theorem threadCount_run {p : Program} {threads : Nat} {calls : List Call}
    (built : build threads calls = .ok p) : p.threadCount = threads := by
  obtain ⟨start, made, ran⟩ := bind_ok built
  apply (Machine.reachable_of_exec ran).invariant
  · unfold Program.make at made
    split at made
    · cases made
    · cases made
      rfl
  · intro p a p' same _ stepped
    cases builder_change stepped <;> exact same

/-- The acquires of a mutex carry the numbers from zero on once each. A release carries
    the number of the innermost acquire that its thread has open, and no two releases of
    a mutex carry the same. -/
theorem locks_numbered {threads : Nat} {calls : List Call} {p : Program}
    (built : build threads calls = .ok p) :
    (∀ m, ∃ k, ((List.range threads).flatMap fun i => acquired m (p.traces i)).Perm (List.range k)) ∧
    (∀ i before s after, p.traces i = before ++ .sync s :: after → s.kind = .lockRelease →
      (opened s.syncObjectAddr before).head? = some s.sequenceNo ∧
      s.sequenceNo ∈ acquired s.syncObjectAddr before) ∧
    ∀ m, ((List.range threads).flatMap fun i => released m (p.traces i)).Nodup := by
  have numbered := Numbered.run built
  have numbers : ∀ m, ((List.range threads).flatMap fun i => acquired m (p.traces i)).Perm
      (List.range ((p.nextLockSeq m).getD 0)) := threadCount_run built ▸ numbered.numbers
  refine ⟨fun m => ⟨_, numbers m⟩, fun i before s after split release => ?_, fun m => ?_⟩
  · have matched := (numbered.books i).matched
    have top := matched before s after split release
    refine ⟨top, ?_⟩
    have earlier : Matched before := fun before' s' after' split' =>
      matched before' s' (after' ++ .sync s :: after) (by
        rw [show (p.threads i).records = _ from split, split', List.append_assoc, List.cons_append])
    have mem : s.sequenceNo ∈ opened s.syncObjectAddr before ++ released s.syncObjectAddr before :=
      List.mem_append_left _ (List.mem_of_mem_head? top)
    exact (earlier.perm s.syncObjectAddr).mem_iff.mpr mem
  · have fewer : ∀ i, (released m (p.traces i)).Subperm (acquired m (p.traces i)) := fun i =>
      (List.sublist_append_right ..).subperm.trans ((numbered.books i).matched.perm m).symm.subperm
    have all := (flatMap_subperm (l := List.range threads) fewer).trans (numbers m).subperm
    obtain ⟨l, perm, sub⟩ := all
    exact perm.nodup_iff.mp (sub.nodup List.nodup_range)

/-- Two threads at two locks; the first thread takes one lock inside the other. -/
def nestedLocks : List Call :=
  [.mutex, .mutex, .lock 0 0x800000, .lock 0 0x800040, .lock 1 0x800040, .unlock 0 0x800040,
    .unlock 0 0x800000, .alus 1 2, .unlock 1 0x800040]

theorem locks_numbered_nested : ∃ p, build 2 nestedLocks = .ok p ∧
    released 0x800040 (p.traces 1) = [1] ∧
    (∃ k, ((List.range 2).flatMap fun i => acquired 0x800040 (p.traces i)).Perm (List.range k)) ∧
    ((List.range 2).flatMap fun i => released 0x800040 (p.traces i)).Nodup := by
  have second : ((build 2 nestedLocks).toOption.map fun p => released 0x800040 (p.traces 1)) =
      some [1] := by decide +kernel
  obtain ⟨p, built, one⟩ := exists_ok second
  obtain ⟨numbers, -, distinct⟩ := locks_numbered built
  exact ⟨p, built, one, numbers _, distinct _⟩

end Synth
