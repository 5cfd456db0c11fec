import MulticoreSim.Memory.AsyncPath

/-! # How long a request waits

Without a coherence sink every miss is answered by what is below, and the answers of a
hierarchy over a main memory take a bounded time. So a slot is ready, or due within
the latency of its level.
-/

namespace Memory

/-- While its state meets `P`, what is below answers within `n`, suspends nothing and
    goes on so. -/
structure Below.Prompt (β : Below) (P : β.State → Prop) (n : Nat) : Prop where
  keeps : ∀ {st st' : β.State} {req : MemReq} {result : AccessResult} {suspended : Bool}
    {calls : List SinkCall}, P st → β.access st req = some (st', result, suspended, calls) → P st'
  answers : ∀ {st st' : β.State} {req : MemReq} {result : AccessResult} {suspended : Bool}
    {calls : List SinkCall}, P st → β.access st req = some (st', result, suspended, calls) →
    suspended = false ∧ result.latency ≤ n

structure Beneath.Prompt (β : Beneath) (P : β.State → Prop) (n : Nat) : Prop
    extends Below.Prompt β.toBelow P n where
  looks : ∀ {st : β.State} (c : Cache), P st → P (β.look st c)

namespace Cache

section

variable {β : Below} {P : β.State → Prop} {n : Nat} (prompt : β.Prompt P n) {below : β.State}

include prompt

theorem evictLru_prompt (c : Cache) (fine : P below) (b : Nat) : P (c.evictLru below b).below := by
  unfold evictLru
  split
  · exact fine
  · simp only
    split
    · exact fine
    · split
      · split
        · exact fine
        · next written => exact prompt.keeps fine written
      · exact fine

theorem insertNewBlock_prompt (c : Cache) (fine : P below) (write : Bool) (b : Nat) (isPrefetch : Bool) :
    P (c.insertNewBlock below write b isPrefetch).below := by
  unfold insertNewBlock
  simp only
  split
  · simp only
    split
    · exact evictLru_prompt prompt c fine b
    · exact fine
  · exact fine

/-- A miss waits for the answer from below and no longer. -/
theorem fetch_prompt {c : Cache} (fine : P below) (sink : c.cfg.coherenceSink = false) (req : MemReq)
    (write : Bool) (op : Op) : P (c.fetch below req write op).1.below ∧
      (c.fetch below req write op).2.latency ≤ c.cfg.hitLatency + n := by
  unfold fetch
  simp only
  split
  · next below' sub suspended calls answered =>
      obtain ⟨rfl, soon⟩ := prompt.answers fine answered
      simp only [Bool.false_eq_true, if_false]
      refine ⟨insertNewBlock_prompt prompt c (prompt.keeps fine answered) _ _ _, ?_⟩
      exact Nat.le_trans (Nat.mod_le _ _) (Nat.add_le_add_left soon _)
  · rw [sink]
    simp only [Bool.false_eq_true, if_false]
    refine ⟨insertNewBlock_prompt prompt c fine _ _ _, ?_⟩
    exact Nat.le_trans (Nat.mod_le _ _) (Nat.add_le_add_left (Nat.zero_le _) _)

theorem accessWbwa_prompt {c : Cache} (fine : P below) (sink : c.cfg.coherenceSink = false)
    (req : MemReq) : P (c.accessWbwa below req).1.below ∧
      (c.accessWbwa below req).2.latency ≤ c.cfg.hitLatency + n := by
  unfold accessWbwa
  simp only
  split
  · rw [if_neg (by simp [sink])]
    exact ⟨fine, Nat.le_trans (Nat.mod_le _ _) (Nat.le_add_right _ _)⟩
  · exact fetch_prompt prompt (c := c.bump _) fine sink req _ _

theorem accessWtwna_prompt {c : Cache} (fine : P below) (sink : c.cfg.coherenceSink = false)
    (req : MemReq) : P (c.accessWtwna below req).1.below ∧
      (c.accessWtwna below req).2.latency ≤ c.cfg.hitLatency + n := by
  unfold accessWtwna
  simp only
  split
  · exact ⟨fine, Nat.le_add_right _ _⟩
  · split
    · exact ⟨fine, Nat.le_trans (Nat.mod_le _ _) (Nat.le_add_right _ _)⟩
    · exact fetch_prompt prompt (c := c.bump _) fine sink req _ _

theorem access_prompt {c : Cache} (fine : P below) (sink : c.cfg.coherenceSink = false) (req : MemReq) :
    P (c.access below req).1.below ∧ (c.access below req).2.latency ≤ c.cfg.hitLatency + n := by
  unfold access
  simp only
  split
  · exact accessWbwa_prompt prompt (c := c.bump _) fine sink req
  · exact accessWtwna_prompt prompt (c := c.bump _) fine sink req

theorem issuePrefetch_prompt (c : Cache) (fine : P below) (byteAddr : Nat) :
    P (c.issuePrefetch below byteAddr).below := by
  unfold issuePrefetch
  split
  · exact fine
  · exact insertNewBlock_prompt prompt c fine _ _ _

end

/-- A prefetch that an access sets off makes nobody wait. -/
theorem accessOver_prompt {β : Beneath} {P : β.State → Prop} {n : Nat} (prompt : β.Prompt P n)
    {c : Cache} {below : β.State} (fine : P below) (sink : c.cfg.coherenceSink = false)
    (pf : Option Prefetcher) (peer : Option Cache) (req : MemReq) :
    P (c.accessOver pf peer below req).1.below ∧
      (c.accessOver pf peer below req).2.2.latency ≤ c.cfg.hitLatency + n := by
  obtain ⟨after, soon⟩ := access_prompt prompt.toPrompt (prompt.looks c fine) sink req
  rw [accessOver_result]
  refine ⟨?_, soon⟩
  unfold accessOver
  simp only
  split
  · exact after
  · split
    · split
      · exact after
      · exact issuePrefetch_prompt prompt.toPrompt _ (prompt.looks _ after) _
    · exact after

end Cache

/-- A main memory, with the latency it is configured for. -/
theorem Beneath.Prompt.memory (n : Nat) :
    Beneath.memory.Prompt (fun m : MainMemory => m.latency ≤ n) n where
  keeps fine answered := by
    cases answered
    exact fine
  answers fine answered := by
    cases answered
    exact ⟨rfl, fine⟩
  looks _ fine := fine

/-- A level over what is prompt, whose latency together with that below stays under the
    sentinel's. -/
def Served.Plain {β : Beneath} (P : β.State → Prop) (n bound : Nat) (s : Served β.toBelow) : Prop :=
  s.cache.cfg.coherenceSink = false ∧ s.cache.cfg.hitLatency + n ≤ bound ∧ P s.below

theorem Beneath.Prompt.level {β : Beneath} {P : β.State → Prop} {n bound : Nat} (prompt : β.Prompt P n)
    (short : bound < coherenceSuspendedLatency) (peerAbove : Bool) :
    (β.level peerAbove).Prompt (fun st : Option Cache × Served β.toBelow => st.2.Plain P n bound)
      bound where
  keeps := by
    rintro ⟨peer, s⟩ st' req result suspended calls ⟨sink, total, fine⟩ answered
    have same := Cache.accessOver_same s.cache s.prefetcher peer s.below req
    have after := (Cache.accessOver_prompt prompt fine sink s.prefetcher peer req).1
    have plain : (s.access peer req).1.Plain P n bound := by
      refine ⟨?_, ?_, after⟩
      · exact (congrArg Config.coherenceSink same.cfg).trans sink
      · exact (congrArg (Config.hitLatency · + n) same.cfg).trans_le total
    cases answered
    exact plain
  answers := by
    rintro ⟨peer, s⟩ st' req result suspended calls ⟨sink, total, fine⟩ answered
    have soon := (Cache.accessOver_prompt prompt fine sink s.prefetcher peer req).2
    cases answered
    have soon := Nat.le_trans soon total
    exact ⟨decide_eq_false (Nat.ne_of_lt (Nat.lt_of_le_of_lt soon short)), soon⟩
  looks _ fine := fine

/-! ## Slots that are due -/

theorem length_modifyFirst {α : Type} {p : α → Bool} {f : α → α} (l : List α) :
    (modifyFirst p f l).length = l.length := by
  induction l with
  | nil => rfl
  | cons x rest ih =>
      unfold modifyFirst
      split
      · rfl
      · exact congrArg (· + 1) ih

theorem MSHR.length_allocate {m m' : MSHR} {id b : Nat} {op : Op} {pc due : Nat} {result : AccessResult}
    (allocated : m.allocate id b op pc due result = some m') : m'.table.length = m.table.length := by
  unfold MSHR.allocate at allocated
  split at allocated
  · cases allocated
    exact length_modifyFirst _
  · split at allocated
    · cases allocated
    · cases allocated
      exact length_modifyFirst _

/-- A slot in use is ready, or due by then. -/
def MSHR.DueBy (m : MSHR) (deadline : Nat) : Prop :=
  ∀ e ∈ m.table, e.valid = true → e.ready = true ∨ e.dueCycle ≤ deadline

namespace MSHR

variable {m m' : MSHR} {deadline id b : Nat} {op : Op} {pc due : Nat} {result : AccessResult}

theorem DueBy.make (numEntries deadline : Nat) : (MSHR.make numEntries).DueBy deadline := by
  intro e mem valid
  rw [List.eq_of_mem_replicate mem] at valid
  cases valid

/-- What holds of every slot and of every rewritten slot holds of every slot after. -/
theorem forall_modifyFirst {α : Type} {p : α → Bool} {f : α → α} {Q : α → Prop} {l : List α}
    (all : ∀ x ∈ l, Q x) (rewritten : ∀ x ∈ l, p x = true → Q (f x)) : ∀ x ∈ modifyFirst p f l, Q x := by
  intro x mem
  rcases mem_modifyFirst mem with old | ⟨y, inside, meets, rfl⟩
  · exact all x old
  · exact rewritten y inside meets

theorem DueBy.allocate (by_then : m.DueBy deadline) (soon : due ≤ deadline)
    (allocated : m.allocate id b op pc due result = some m') : m'.DueBy deadline := by
  unfold MSHR.allocate at allocated
  split at allocated
  · cases allocated
    exact forall_modifyFirst by_then fun e mem _ => by_then e mem
  · split at allocated
    · cases allocated
    · cases allocated
      exact forall_modifyFirst by_then fun _ _ _ _ => .inr soon

theorem DueBy.release (by_then : m.DueBy deadline) (id : Nat) : (m.release id).DueBy deadline := by
  refine forall_modifyFirst by_then fun e mem own => ?_
  unfold releaseEntry
  split
  · split
    · intro valid
      cases valid
    · exact by_then e mem
  · exact by_then e mem

theorem DueBy.tick (by_then : m.DueBy deadline) (now : Nat) : (m.tick now).DueBy deadline := by
  intro e' mem' valid
  obtain ⟨e, mem, rfl⟩ := List.mem_map.mp mem'
  change (e.ticked now).valid = true at valid
  change (e.ticked now).ready = true ∨ (e.ticked now).dueCycle ≤ deadline
  obtain ⟨same, -, due, -⟩ := e.ticked_fields now
  rw [same] at valid
  rw [due]
  rcases by_then e mem valid with ready | soon
  · left
    unfold MSHREntry.ticked
    split
    · rfl
    · exact ready
  · exact .inr soon

theorem DueBy.mono {later : Nat} (by_then : m.DueBy deadline) (le : deadline ≤ later) : m.DueBy later :=
  fun e mem valid => (by_then e mem valid).imp_right fun soon => Nat.le_trans soon le

end MSHR

namespace Served

variable {β : Beneath} {P : β.State → Prop} {n bound : Nat} {s : Served β.toBelow}

/-- A plain level of which every slot is due within its latency. -/
structure Timely (P : β.State → Prop) (n bound : Nat) (s : Served β.toBelow) : Prop where
  plain : s.Plain P n bound
  table : s.cache.mshr.DueBy (s.cache.now + bound)

theorem Timely.build (cfg : Config) (prefetcher : Option Prefetcher) {below : β.State}
    (sink : cfg.coherenceSink = false) (total : cfg.hitLatency + n ≤ bound) (fine : P below) :
    Timely P n bound ⟨Cache.build cfg, prefetcher, below⟩ :=
  ⟨⟨sink, total, fine⟩, .make _ _⟩

theorem Timely.issue (timely : s.Timely P n bound) (prompt : β.Prompt P n)
    (short : bound < coherenceSuspendedLatency) (peer : Option Cache) (req : MemReq) :
    (s.issue peer req).1.Timely P n bound := by
  obtain ⟨⟨sink, total, fine⟩, table⟩ := timely
  have issued := Cache.issueOver_issued s.cache s.prefetcher peer s.below req
  have same := Cache.accessOver_same s.cache s.prefetcher peer s.below req
  obtain ⟨after, soon⟩ := Cache.accessOver_prompt prompt fine sink s.prefetcher peer req
  simp only [Served.issue]
  generalize s.cache.issueOver s.prefetcher peer s.below req = y at issued
  cases issued with
  | rejected full => exact ⟨⟨sink, total, fine⟩, table⟩
  | @merged e mshr mem read targets taken =>
      have valid : e.valid = true := (MSHREntry.targets_iff.mp targets).1
      refine ⟨⟨sink, total, fine⟩, ?_⟩
      -- Joining a slot leaves its date: only the ids change.
      unfold MSHR.allocate at taken
      rw [if_pos (List.any_eq_true.mpr ⟨e, mem, targets⟩)] at taken
      cases taken
      exact MSHR.forall_modifyFirst table fun e mem _ => table e mem
  | @accessed r pf' result mshr room done taken =>
      rw [done] at same after soon
      refine ⟨⟨same.cfg ▸ sink, same.cfg ▸ total, after⟩, ?_⟩
      change MSHR.DueBy mshr (r.cache.now + bound)
      rw [same.now]
      refine table.allocate ?_ taken
      have within : result.latency ≤ bound := Nat.le_trans soon total
      rw [Cache.due, if_neg (Nat.ne_of_lt (Nat.lt_of_le_of_lt within short))]
      exact Nat.le_trans (Nat.mod_le _ _) (Nat.add_le_add_left within _)

theorem Timely.complete (timely : s.Timely P n bound) (id : Nat) :
    (s.apply (.complete id)).Timely P n bound :=
  ⟨timely.plain, timely.table.release id⟩

theorem Timely.tick (timely : s.Timely P n bound) : (s.apply .tick).Timely P n bound := by
  refine ⟨timely.plain, (timely.table.tick _).mono ?_⟩
  change s.cache.now + bound ≤ s.cache.now + 1 + bound
  omega

/-! ## Waiting for one request -/

/-- The request is ready, or will be after at most `k` ticks. -/
def ReadyWithin (s : Served β.toBelow) (k id : Nat) : Prop :=
  ∃ e, s.cache.peek id = some e ∧ (e.ready = true ∨ k ≠ 0 ∧ e.dueCycle ≤ s.cache.now + k)

theorem ReadyWithin.now {id : Nat} (within : s.ReadyWithin 0 id) :
    (s.cache.peek id).any (·.ready) = true := by
  obtain ⟨e, found, ready | late⟩ := within
  · rw [found]
    exact ready
  · exact absurd rfl late.1

/-- A slot in use of a timely level. -/
theorem Timely.within (timely : s.Timely P n bound) {k id : Nat} {e : MSHREntry}
    (found : s.cache.peek id = some e) (some : k ≠ 0) (le : bound ≤ k) : s.ReadyWithin k id := by
  have holds := List.find?_some found
  rw [MSHREntry.holds, Bool.and_eq_true] at holds
  refine ⟨e, found, ?_⟩
  rcases timely.table e (List.mem_of_find?_eq_some found) holds.1 with ready | soon
  · exact .inl ready
  · exact .inr ⟨some, Nat.le_trans soon (Nat.add_le_add_left le _)⟩

/-- What the holders see of a slot decides how long they wait. -/
theorem ReadyWithin.of_card {t : Served β.toBelow} {k id : Nat} (within : s.ReadyWithin k id)
    (clock : t.cache.now = s.cache.now)
    (card : (t.cache.peek id).map (·.card) = (s.cache.peek id).map (·.card)) : t.ReadyWithin k id := by
  obtain ⟨e, found, soon⟩ := within
  rw [found, Option.map_some, Option.map_eq_some_iff] at card
  obtain ⟨e', found', same⟩ := card
  have ready : e'.ready = e.ready := (congrArg MSHREntry.ready same :)
  have due : e'.dueCycle = e.dueCycle := (congrArg MSHREntry.dueCycle same :)
  refine ⟨e', found', ?_⟩
  rw [ready, due, clock]
  exact soon

theorem ReadyWithin.complete {k id other : Nat} (within : s.ReadyWithin k other) (ne : other ≠ id) :
    (s.apply (.complete id)).ReadyWithin k other :=
  within.of_card rfl (MSHR.find_release ne)

theorem ReadyWithin.issue {k id : Nat} (within : s.ReadyWithin k id) (given : id ≠ s.cache.nextId)
    (peer : Option Cache) (req : MemReq) : (s.issue peer req).1.ReadyWithin k id := by
  have issued := Cache.issueOver_issued s.cache s.prefetcher peer s.below req
  have same := Cache.accessOver_same s.cache s.prefetcher peer s.below req
  simp only [Served.issue]
  generalize s.cache.issueOver s.prefetcher peer s.below req = y at issued
  cases issued with
  | rejected full => exact within
  | merged mem read targets taken => exact within.of_card rfl (MSHR.find_allocate given taken)
  | accessed room done taken =>
      rw [done] at same
      exact within.of_card same.now (MSHR.find_allocate given taken)

/-- A tick brings every request nearer. -/
theorem ReadyWithin.tick {k id : Nat} (within : s.ReadyWithin (k + 1) id) :
    (s.apply .tick).ReadyWithin k id := by
  obtain ⟨e, found, soon⟩ := within
  have holds := List.find?_some found
  have after : (s.apply .tick).cache.peek id = some (e.ticked (s.cache.now + 1)) := by
    have test : (fun e => MSHREntry.holds e id) ∘ MSHREntry.ticked (s.cache.now + 1) =
        fun e => e.holds id := by
      funext e
      simp only [Function.comp, MSHREntry.ticked]
      split <;> rfl
    change ((s.cache.mshr.table.map (MSHREntry.ticked (s.cache.now + 1))).find? fun e => e.holds id) = _
    rw [List.find?_map, test]
    exact congrArg (Option.map _) found
  refine ⟨_, after, ?_⟩
  have clock : (s.apply .tick).cache.now = s.cache.now + 1 := rfl
  obtain ⟨-, -, due, -⟩ := e.ticked_fields (s.cache.now + 1)
  rw [MSHREntry.holds, Bool.and_eq_true] at holds
  by_cases woken : e.valid = true ∧ e.ready = false ∧ e.dueCycle ≤ s.cache.now + 1
  · left
    rw [MSHREntry.ticked, if_pos woken]
  · rcases soon with ready | ⟨-, soon⟩
    · left
      rw [MSHREntry.ticked, if_neg woken]
      exact ready
    · cases ready : e.ready with
      | true =>
          left
          rw [MSHREntry.ticked, if_neg woken]
          exact ready
      | false =>
          right
          rw [due, clock]
          have late : ¬e.dueCycle ≤ s.cache.now + 1 := fun early => woken ⟨holds.1, ready, early⟩
          omega

end Served

end Memory
