import MulticoreSim.Memory.Ownership

/-! # The completion of a write

A write that no slot is in use for gets a slot of its own, with the result of
its own access and its own due cycle. Where a slot is in use for its block the
table lets it join that one all the same.
-/

namespace Memory

variable {β : Beneath}

namespace Custody

/-- What a run of the cache keeps, whoever holds the ids. -/
theorem exists_kept {ok : Served β.toBelow → CacheOp β → Prop} {cfg : Config}
    {prefetcher : Option Prefetcher} {below : β.State} {s : Served β.toBelow}
    (run : (Served.machine β).Run ok ⟨Cache.build cfg, prefetcher, below⟩ s) :
    ∃ held, Kept (β := β) ⟨s, held⟩ := by
  apply run.invariant (I := fun s => ∃ held, Kept (β := β) ⟨s, held⟩)
  · exact ⟨[], .make _, List.nodup_nil, fun _ mem => absurd mem List.not_mem_nil⟩
  · rintro s op s' ⟨held, kept⟩ - stepped
    cases stepped
    have next := kept_apply kept op
    cases op <;> exact ⟨_, next⟩

end Custody

namespace MSHR

variable {m m' : MSHR} {id other b n : Nat} {op : Op} {pc at_ : Nat} {result : AccessResult}

/-- A slot of its own. -/
theorem find_allocated (alone : ∀ e ∈ m.table, e.targets b = false)
    (new : ∀ e ∈ m.table, e.holds n = false)
    (taken : m.allocate n b op pc at_ result = some m') :
    m'.find n = some { id := n, blockAddr := b, op, pc, valid := true, dueCycle := at_, result } := by
  have unused : m.table.any (·.targets b) = false := by simpa using alone
  unfold MSHR.allocate at taken
  rw [unused] at taken
  simp only [Bool.false_eq_true, if_false] at taken
  split at taken
  · cases taken
  · next room =>
      cases taken
      obtain ⟨free, mem, invalid⟩ : ∃ e ∈ m.table, (!e.valid) = true := by simpa [MSHR.full] using room
      obtain ⟨-, -, -, inside⟩ := exists_modifyFirst (p := fun e : MSHREntry => !e.valid)
        (f := fun _ => { id := n, blockAddr := b, op, pc, valid := true, dueCycle := at_, result })
        mem invalid
      cases found : MSHR.find ⟨modifyFirst (fun e : MSHREntry => !e.valid)
          (fun _ => { id := n, blockAddr := b, op, pc, valid := true, dueCycle := at_, result })
          m.table⟩ n with
      | none =>
          have unheld := List.find?_eq_none.mp found _ inside
          exact absurd (by simp [MSHREntry.holds]) unheld
      | some e =>
          have holds := List.find?_some found
          rcases mem_modifyFirst (List.mem_of_find?_eq_some found) with old | ⟨-, -, -, eq⟩
          · cases (new e old).symm.trans holds
          · rw [eq]

theorem find_tick (now : Nat) : (m.tick now).find id = (m.find id).map (·.ticked now) := by
  unfold MSHR.find
  change (m.table.map (MSHREntry.ticked now)).find? _ = _
  rw [List.find?_map]
  congr 1
  apply congrArg (List.find? · m.table)
  funext e
  rw [Function.comp_apply, Bool.eq_iff_iff, MSHREntry.holds_iff, MSHREntry.holds_iff,
    (e.ticked_fields now).2.2.2.2]

/-- A slot as it looks to one who does not ask whether it is ready. -/
theorem find_markReady (m : MSHR) (id other : Nat) :
    ((m.markReady other).find id).map (fun e => { e.card with ready := false }) =
      (m.find id).map fun e => { e.card with ready := false } :=
  find_modifyFirst _ fun _ _ _ => ⟨rfl, fun _ => rfl⟩

/-- A mark on slots for other blocks. -/
theorem find_markReady_other (id : Nat) (elsewhere : ∀ e ∈ m.table, e.holds other = true → e.blockAddr ≠ b) :
    ((m.markReady other).find id).map (fun e => if e.blockAddr = b then e.card else {}) =
      (m.find id).map fun e => if e.blockAddr = b then e.card else {} := by
  apply find_modifyFirst
  intro e mem marked
  have apart := elsewhere e mem marked
  exact ⟨rfl, fun _ => by rw [if_neg apart, if_neg apart]⟩

end MSHR

/-! ## Due cycles -/

namespace Cache

variable {c : Cache} {req : MemReq}

theorem suspended_word : coherenceSuspendedLatency < 2 ^ 32 := by decide

theorem mod_word (n : Nat) : n % 2 ^ 32 < 2 ^ 32 := Nat.mod_lt _ (by decide)

theorem fetch_word {β : Below} (c : Cache) (below : β.State) (req : MemReq) (write : Bool) (op : Op) :
    (c.fetch below req write op).2.latency < 2 ^ 32 := by
  unfold fetch
  simp only
  split
  · split
    · exact suspended_word
    · exact mod_word _
  · split
    · exact suspended_word
    · exact mod_word _

theorem accessWbwa_word {β : Below} (c : Cache) (below : β.State) (req : MemReq) :
    (c.accessWbwa below req).2.latency < 2 ^ 32 := by
  unfold accessWbwa
  simp only
  split
  · split
    · exact suspended_word
    · exact mod_word _
  · exact fetch_word _ _ _ _ _

theorem accessWtwna_word {β : Below} (word : c.cfg.hitLatency < 2 ^ 32) (below : β.State) :
    (c.accessWtwna below req).2.latency < 2 ^ 32 := by
  unfold accessWtwna
  simp only
  split
  · exact word
  · split
    · exact mod_word _
    · exact fetch_word _ _ _ _ _

/-- Latencies are of 32 bits. -/
theorem access_word {β : Below} (word : c.cfg.hitLatency < 2 ^ 32) (below : β.State) (req : MemReq) :
    (c.access below req).2.latency < 2 ^ 32 := by
  unfold access
  simp only
  split
  · exact accessWbwa_word _ _ _
  · exact accessWtwna_word (c := c.bump _) word _

theorem accessOver_result (c : Cache) (pf : Option Prefetcher) (peer : Option Cache) (below : β.State)
    (req : MemReq) :
    (c.accessOver pf peer below req).2.2 = (c.access (β := β.toBelow) (β.look below c) req).2 := by
  unfold accessOver
  simp only
  split
  · rfl
  · split
    · split <;> rfl
    · rfl

/-- Far from the end of the clock nothing wraps, and no clock gets to `never`. -/
theorem due_early {now : Nat} {result : AccessResult} (early : now + 2 ^ 32 ≤ 2 ^ 64)
    (word : result.latency < 2 ^ 32) :
    due now result =
      if result.latency = coherenceSuspendedLatency then never else now + result.latency := by
  unfold due
  split
  · rfl
  · exact Nat.mod_eq_of_lt (by omega)

end Cache

/-! ## Runs -/

namespace Served

/-- No write is issued for whose block a slot is in use, and the clock stays away from its end. -/
def Alone (s : Served β.toBelow) : CacheOp β → Prop
  | .issue _ req =>
      req.op = .write → ∀ e ∈ s.cache.mshr.table, e.targets (s.cache.getBlockAddr req.addr) = false
  | .tick => s.cache.now + 1 + 2 ^ 32 ≤ 2 ^ 64
  | _ => True

/-- The calls until an id is completed, with no mark for its block before it is due. -/
def Awaits (id block due : Nat) (s : Served β.toBelow) : CacheOp β → Prop
  | .complete other => other ≠ id
  | .tick => s.cache.now + 1 + 2 ^ 32 ≤ 2 ^ 64
  | .markReady other =>
      due ≤ s.cache.now ∨ ∀ e ∈ s.cache.mshr.table, e.holds other = true → e.blockAddr ≠ block
  | _ => True

/-- What the holder of an id sees: its own result, and no readiness before it is due. -/
structure Sees (id block due : Nat) (result : AccessResult) (s : Served β.toBelow) : Prop where
  given : id < s.cache.nextId
  early : s.cache.now + 2 ^ 32 ≤ 2 ^ 64
  slot : ∃ e, s.cache.peek id = some e ∧ e.blockAddr = block ∧ e.dueCycle = due ∧ e.result = result ∧
    (e.ready = true → due ≤ s.cache.now)

variable {id block due : Nat} {result : AccessResult} {s : Served β.toBelow}

theorem Sees.same (sees : Sees id block due result s) {s' : Served β.toBelow}
    (same : s.cache.SameTable s'.cache) : Sees id block due result s' := by
  obtain ⟨given, early, slot⟩ := sees
  refine ⟨same.nextId ▸ given, same.now ▸ early, ?_⟩
  rw [Cache.peek, same.mshr, same.now]
  exact slot

/-- The table may change as long as the slot's card does not. -/
theorem Sees.card (sees : Sees id block due result s) {s' : Served β.toBelow}
    (next : s.cache.nextId ≤ s'.cache.nextId) (now : s'.cache.now = s.cache.now)
    (card : (s'.cache.peek id).map (·.card) = (s.cache.peek id).map (·.card)) :
    Sees id block due result s' := by
  obtain ⟨given, early, e, found, block', due', result', ready⟩ := sees
  refine ⟨Nat.lt_of_lt_of_le given next, now ▸ early, ?_⟩
  rw [found] at card
  obtain ⟨e', found', same⟩ := Option.map_eq_some_iff.mp card
  have fields (g : MSHREntry → Nat × Nat × AccessResult × Bool)
      (seen : ∀ e, g e = g e.card) : g e' = g e := by
    rw [seen, seen e, same]
  have same := fields (fun e => (e.blockAddr, e.dueCycle, e.result, e.ready)) fun _ => rfl
  simp only [Prod.mk.injEq] at same
  obtain ⟨block'', due'', result'', ready''⟩ := same
  refine ⟨e', found', block''.trans block', due''.trans due', result''.trans result', ?_⟩
  rw [ready'', now]
  exact ready

theorem sees_apply (sees : Sees id block due result s) {op : CacheOp β}
    (awaits : s.Awaits id block due op) : Sees id block due result (s.apply op) := by
  cases op with
  | access peer req => exact sees.same (Cache.accessOver_same _ _ _ _ _)
  | issue peer req =>
      have issued := Cache.issueOver_issued s.cache s.prefetcher peer s.below req
      have same := Cache.accessOver_same s.cache s.prefetcher peer s.below req
      have other : id ≠ s.cache.nextId := Nat.ne_of_lt sees.given
      simp only [apply, issue]
      generalize s.cache.issueOver s.prefetcher peer s.below req = y at issued
      cases issued with
      | rejected full => exact sees
      | merged mem read targets taken =>
          exact sees.card (Nat.le_succ _) rfl (MSHR.find_allocate other taken)
      | accessed room done taken =>
          rw [done] at same
          refine sees.card ?_ same.now (MSHR.find_allocate other taken)
          exact same.nextId ▸ Nat.le_succ _
  | issuePrefetch byteAddr => exact sees.same (Cache.issuePrefetch_same _ _ _)
  | cacheFill blockAddr write => exact sees.same (Cache.fill_same _)
  | coherenceInvalidate blockAddr => exact sees.same Cache.coherenceInvalidate_same
  | coherenceClean blockAddr => exact sees.same (Cache.coherenceMark_same _)
  | coherenceSetDirty blockAddr => exact sees.same (Cache.coherenceMark_same _)
  | complete other => exact sees.card (Nat.le_refl _) rfl (MSHR.find_release (Ne.symm awaits))
  | tick =>
      obtain ⟨given, early, e, found, block', due', result', ready⟩ := sees
      obtain ⟨-, sameBlock, sameDue, sameResult, -⟩ := e.ticked_fields (s.cache.now + 1)
      refine ⟨given, awaits, e.ticked (s.cache.now + 1), ?_, sameBlock.trans block',
        sameDue.trans due', sameResult.trans result', fun seen => ?_⟩
      · change (s.cache.mshr.tick _).find id = _
        rw [MSHR.find_tick]
        change Option.map _ (s.cache.peek id) = _
        rw [found]
        rfl
      · change due ≤ s.cache.now + 1
        unfold MSHREntry.ticked at seen
        split at seen
        · next elapsed => exact due' ▸ elapsed.2.2
        · exact Nat.le_succ_of_le (ready seen)
  | markReady other =>
      obtain ⟨given, early, e, found, block', due', result', ready⟩ := sees
      have face := MSHR.find_markReady s.cache.mshr id other
      change s.cache.mshr.find id = some e at found
      rw [found] at face
      obtain ⟨e', found', same⟩ := Option.map_eq_some_iff.mp face
      have fields (g : MSHREntry → Nat × Nat × AccessResult)
          (seen : ∀ e, g e = g { e.card with ready := false }) : g e' = g e := by
        rw [seen, seen e, same]
      have same := fields (fun e => (e.blockAddr, e.dueCycle, e.result)) fun _ => rfl
      simp only [Prod.mk.injEq] at same
      obtain ⟨block'', due'', result''⟩ := same
      refine ⟨given, early, e', found', block''.trans block', due''.trans due',
        result''.trans result', fun seen => ?_⟩
      rcases awaits with elapsed | elsewhere
      · exact elapsed
      · have view := MSHR.find_markReady_other id elsewhere
        rw [found, found', Option.map_some, Option.map_some, Option.some_inj,
          if_pos (block''.trans block'), if_pos block'] at view
        have unmarked : e'.card.ready = e.card.ready := congrArg MSHREntry.ready view
        exact ready (unmarked.symm.trans seen)
  | below next => exact ⟨sees.given, sees.early, sees.slot⟩

theorem sees_run (sees : Sees id block due result s) {t : Served β.toBelow}
    (run : (machine β).Run (Awaits id block due) s t) : Sees id block due result t := by
  apply run.invariant (I := Sees id block due result) sees
  intro s op s' sees awaits stepped
  cases stepped
  exact sees_apply sees awaits

/-- Only a tick moves the clock, and nothing moves the settings. -/
theorem apply_clock (s : Served β.toBelow) (op : CacheOp β) :
    (s.apply op).cache.cfg = s.cache.cfg ∧
      ((s.apply op).cache.now = s.cache.now ∨ op = .tick ∧ (s.apply op).cache.now = s.cache.now + 1) := by
  have same {c' : Cache} (same : s.cache.SameTable c') :
      c'.cfg = s.cache.cfg ∧ (c'.now = s.cache.now ∨ op = .tick ∧ c'.now = s.cache.now + 1) :=
    ⟨same.cfg, .inl same.now⟩
  cases op with
  | access peer req => exact same (Cache.accessOver_same _ _ _ _ _)
  | issue peer req =>
      have issued := Cache.issueOver_issued s.cache s.prefetcher peer s.below req
      have done := Cache.accessOver_same s.cache s.prefetcher peer s.below req
      simp only [apply, issue]
      generalize s.cache.issueOver s.prefetcher peer s.below req = y at issued
      cases issued with
      | rejected full => exact ⟨rfl, .inl rfl⟩
      | merged mem read targets taken => exact ⟨rfl, .inl rfl⟩
      | accessed room carried taken =>
          rw [carried] at done
          exact ⟨done.cfg, .inl done.now⟩
  | issuePrefetch byteAddr => exact same (Cache.issuePrefetch_same _ _ _)
  | cacheFill blockAddr write => exact same (Cache.fill_same _)
  | coherenceInvalidate blockAddr => exact same Cache.coherenceInvalidate_same
  | coherenceClean blockAddr => exact same (Cache.coherenceMark_same _)
  | coherenceSetDirty blockAddr => exact same (Cache.coherenceMark_same _)
  | complete | markReady | below => exact ⟨rfl, .inl rfl⟩
  | tick => exact ⟨rfl, .inr ⟨rfl, rfl⟩⟩

/-- A run that stays away from the end of the clock. -/
theorem early_run {cfg : Config} {prefetcher : Option Prefetcher} {below : β.State}
    (run : (machine β).Run Alone ⟨Cache.build cfg, prefetcher, below⟩ s) :
    s.cache.cfg = cfg ∧ s.cache.now + 2 ^ 32 ≤ 2 ^ 64 := by
  apply run.invariant (I := fun s => s.cache.cfg = cfg ∧ s.cache.now + 2 ^ 32 ≤ 2 ^ 64)
  · refine ⟨rfl, ?_⟩
    change 0 + 2 ^ 32 ≤ 2 ^ 64
    decide
  · intro s op s' early alone stepped
    cases stepped
    obtain ⟨same, clock⟩ := apply_clock s op
    refine ⟨same.trans early.1, ?_⟩
    rcases clock with still | ⟨rfl, moved⟩
    · rw [still]
      exact early.2
    · rw [moved]
      exact alone

theorem sees_issue {cfg : Config} {prefetcher : Option Prefetcher} {below : β.State}
    (run : (machine β).Run Alone ⟨Cache.build cfg, prefetcher, below⟩ s) {peer : Option Cache}
    {req : MemReq} (write : req.op = .write) (alone : s.Alone (.issue peer req))
    (returned : (s.issue peer req).2 = some id) :
    Sees id (s.cache.getBlockAddr req.addr) (Cache.due s.cache.now (s.access peer req).2)
      (s.access peer req).2 (s.issue peer req).1 := by
  obtain ⟨held, kept⟩ := Custody.exists_kept run
  obtain ⟨-, early⟩ := early_run run
  have issued := Cache.issueOver_issued s.cache s.prefetcher peer s.below req
  have same := Cache.accessOver_same s.cache s.prefetcher peer s.below req
  simp only [issue] at returned ⊢
  simp only [access]
  generalize s.cache.issueOver s.prefetcher peer s.below req = y at issued returned
  cases issued with
  | rejected full => cases returned
  | merged mem read targets taken => exact absurd write read
  | accessed room done taken =>
      cases returned
      rw [done] at same ⊢
      have unheld : ∀ e ∈ s.cache.mshr.table, e.holds s.cache.nextId = false := by
        intro e mem
        rw [Bool.eq_false_iff]
        intro holds
        have inside := kept.owned.holders.mem_iff.mp
          (List.mem_flatMap.mpr ⟨e, mem, (e.holds_iff _).mp holds⟩)
        exact Nat.lt_irrefl _ (kept.given _ inside)
      refine ⟨?_, ?_, _, MSHR.find_allocated (alone write) unheld taken, rfl, rfl, rfl, ?_⟩
      · exact same.nextId ▸ Nat.lt_succ_self _
      · exact same.now ▸ early
      · intro ready
        cases ready

/-- A write for whose block no slot is in use: until it is completed its id finds its own result,
    not ready before its own latency has passed, and if it was suspended not before its block
    is marked. -/
theorem write_completion {cfg : Config} (word : cfg.hitLatency < 2 ^ 32)
    {prefetcher : Option Prefetcher} {below : β.State} {s : Served β.toBelow}
    (run : (machine β).Run Alone ⟨Cache.build cfg, prefetcher, below⟩ s) {peer : Option Cache}
    {req : MemReq} (write : req.op = .write) (alone : s.Alone (.issue peer req)) {id : Nat}
    (returned : (s.issue peer req).2 = some id) {t : Served β.toBelow}
    (later : (machine β).Run
      (Awaits id (s.cache.getBlockAddr req.addr) (Cache.due s.cache.now (s.access peer req).2))
      (s.issue peer req).1 t) :
    ∃ e, t.cache.peek id = some e ∧ e.result = (s.access peer req).2 ∧
      (e.ready = true → (s.access peer req).2.latency ≠ coherenceSuspendedLatency ∧
        s.cache.now + (s.access peer req).2.latency ≤ t.cache.now) := by
  obtain ⟨same, early⟩ := early_run run
  have latency : (s.access peer req).2.latency < 2 ^ 32 := by
    simp only [access]
    rw [Cache.accessOver_result]
    exact Cache.access_word (by rw [same]; exact word) _ _
  obtain ⟨-, clock, e, found, -, -, result, ready⟩ := sees_run (sees_issue run write alone returned) later
  refine ⟨e, found, result, fun seen => ?_⟩
  have due := ready seen
  rw [Cache.due_early early latency] at due
  split at due
  · exact absurd due (by unfold Cache.never; omega)
  · next answered => exact ⟨answered, due⟩

/-- A read in flight. -/
def readInFlight : Served Beneath.memory.toBelow := (fresh {} none).apply (.issue none { addr := 64 })

/-- A write to another block is not held up by it. -/
theorem write_beside_read :
    ∃ e, (((readInFlight.issue none { addr := 0, op := .write }).1.apply .tick).cache.peek 2) = some e ∧
      e.result = (readInFlight.access none { addr := 0, op := .write }).2 ∧
      (e.ready = true →
        (readInFlight.access none { addr := 0, op := .write }).2.latency ≠ coherenceSuspendedLatency ∧
          readInFlight.cache.now + (readInFlight.access none { addr := 0, op := .write }).2.latency ≤
            ((readInFlight.issue none { addr := 0, op := .write }).1.apply .tick).cache.now) := by
  have run : (machine .memory).Run Alone ⟨Cache.build {}, none, ({} : MainMemory)⟩ readInFlight :=
    .step (a := .issue none { addr := 64 }) .start (by intro write; cases write) rfl
  apply write_completion (by decide) run rfl
  · intro _ e mem
    revert e
    decide +kernel
  · decide +kernel
  · refine .step (a := .tick) .start ?_ rfl
    change (readInFlight.issue none { addr := 0, op := .write }).1.cache.now + 1 + 2 ^ 32 ≤ 2 ^ 64
    decide +kernel

/-- A write to the same block joins the read: it finds the read's result. -/
theorem write_joins_read :
    (machine .memory).Reachable (fresh {} none) readInFlight ∧
      (readInFlight.issue none { addr := 64, op := .write }).2 = some 2 ∧
      ((readInFlight.issue none { addr := 64, op := .write }).1.cache.peek 2).map (·.result) ≠
        some (readInFlight.access none { addr := 64, op := .write }).2 := by
  refine ⟨.step (a := .issue none { addr := 64 }) .start trivial rfl, ?_, ?_⟩
  · decide +kernel
  · decide +kernel

end Served

end Memory
