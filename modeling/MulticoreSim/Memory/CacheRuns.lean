import MulticoreSim.Library.Machine
import MulticoreSim.Memory.Rows

/-! # A cache in use

Everything that is done to one cache, in any order, by whoever holds it: the
cache above or a core, the adapter of a coherent core, and the clock.
-/

namespace Memory

/-- One call. `peer` is the cache above, which the prefetcher looks into. -/
inductive CacheOp (β : Beneath) where
  | access (peer : Option Cache) (req : MemReq)
  | issue (peer : Option Cache) (req : MemReq)
  | issuePrefetch (byteAddr : Nat)
  | cacheFill (blockAddr : Nat) (write : Bool)
  | coherenceInvalidate (blockAddr : Nat)
  | coherenceClean (blockAddr : Nat)
  | coherenceSetDirty (blockAddr : Nat)
  | complete (id : Nat)
  | tick
  | markReady (id : Nat)
  /-- Others use what is below. -/
  | below (next : β.State)

namespace Served

variable {β : Beneath}

def apply (s : Served β.toBelow) : CacheOp β → Served β.toBelow
  | .access peer req => (s.access peer req).1
  | .issue peer req => (s.issue peer req).1
  | .issuePrefetch byteAddr =>
      let r := s.cache.issuePrefetch (β := β.toBelow) (β.look s.below s.cache) byteAddr
      { s with cache := r.cache, below := r.below }
  | .cacheFill blockAddr write =>
      let r := s.cache.fill (β := β.toBelow) (β.look s.below s.cache) blockAddr write
      { s with cache := r.cache, below := r.below }
  | .coherenceInvalidate blockAddr => { s with cache := s.cache.coherenceInvalidate blockAddr }
  | .coherenceClean blockAddr => { s with cache := s.cache.coherenceMark blockAddr false }
  | .coherenceSetDirty blockAddr => { s with cache := s.cache.coherenceMark blockAddr true }
  | .complete id => { s with cache := s.cache.complete id }
  | .tick => { s with cache := s.cache.tick }
  | .markReady id => { s with cache := { s.cache with mshr := s.cache.mshr.markReady id } }
  | .below next => { s with below := next }

/-- Caches in use. No call fails. -/
def machine (β : Beneath) : Machine (Served β.toBelow) (CacheOp β) Empty := ⟨fun s op => .ok (s.apply op)⟩

/-- The calls that leave the sets as they should be: no dirty mark is put on a
    resident line of a WTWNA cache, and no block is filled that is there and that
    the 64-bit byte address of the test in `cache_fill` misses. -/
def Minds (s : Served β.toBelow) : CacheOp β → Prop
  | .coherenceSetDirty blockAddr =>
      s.cache.cfg.writePolicy = .wtwna → s.cache.isInCache blockAddr = false
  | .cacheFill blockAddr write =>
      (s.cache.blockIn (shiftLeft64 blockAddr s.cache.cfg.b) = false →
        s.cache.isInCache blockAddr = false) ∧
      (s.cache.blockIn (shiftLeft64 blockAddr s.cache.cfg.b) = true → write = true →
        s.cache.cfg.writePolicy = .wtwna → s.cache.isInCache blockAddr = false)
  | _ => True

/-- A cache of which the sets and the counters are in order. -/
structure Tidy (c : Cache) : Prop where
  rows : c.WellFormed
  counted : c.Counted

theorem tidy_build (cfg : Config) : Tidy (Cache.build cfg) where
  rows _ := ⟨Nat.zero_le _, fun _ mem => absurd mem List.not_mem_nil, List.nodup_nil⟩
  counted := ⟨fun _ => rfl, fun _ => rfl⟩

theorem tidy_apply {s : Served β.toBelow} (tidy : Tidy s.cache) {op : CacheOp β} (minds : s.Minds op) :
    Tidy (s.apply op).cache := by
  obtain ⟨rows, counted⟩ := tidy
  cases op with
  | access peer req => exact ⟨rows.accessOver _ _ _, counted.accessOver _ _ _⟩
  | issue peer req => exact ⟨rows.issueOver _ _ _, counted.issueOver _ _ _⟩
  | issuePrefetch byteAddr =>
      exact ⟨rows.issuePrefetch _ _, counted.same (Cache.sameDemands_issuePrefetch _ _ _)⟩
  | cacheFill blockAddr write =>
      exact ⟨rows.fill _ minds.1 minds.2, counted.same (Cache.sameDemands_fill _ _ _ _)⟩
  | coherenceInvalidate blockAddr =>
      exact ⟨rows.invalidate _, counted.same (Cache.sameDemands_invalidate _ _)⟩
  | coherenceClean blockAddr =>
      exact ⟨rows.mark _ (by simp), counted.same ⟨rfl, rfl⟩⟩
  | coherenceSetDirty blockAddr =>
      exact ⟨rows.mark _ fun _ => minds, counted.same ⟨rfl, rfl⟩⟩
  | complete | tick | markReady => exact ⟨rows.of_same rfl rfl, counted.same ⟨rfl, rfl⟩⟩
  | below next => exact ⟨rows, counted⟩

/-- In every run whose calls all mind that, the sets and the counters are in order. -/
theorem tidy_run {cfg : Config} {cache : Cache} (made : Cache.make cfg = .ok cache)
    (prefetcher : Option Prefetcher) (below : β.State) {s : Served β.toBelow}
    (run : (machine β).Run Minds ⟨cache, prefetcher, below⟩ s) :
    Tidy s.cache := by
  apply run.invariant (I := fun s => Tidy s.cache)
  · unfold Cache.make at made
    split at made
    · cases made
    · cases made
      exact tidy_build cfg
  · intro s op s' tidy minds stepped
    cases stepped
    exact tidy_apply tidy minds

/-- A cache over the main memory. -/
def fresh (cfg : Config) (prefetcher : Option Prefetcher) : Served Beneath.memory.toBelow :=
  ⟨Cache.build cfg, prefetcher, ({} : MainMemory)⟩

/-- A written line is filled again and marked, where nothing forbids it. -/
theorem tidy_filled :
    Tidy ((((fresh {} (some .plusOne)).apply (.access none { addr := 64, op := .write })).apply
      (.cacheFill 1 true)).apply (.coherenceSetDirty 1)).cache := by
  have made : Cache.make {} = .ok (fresh {} (some .plusOne)).cache := rfl
  apply tidy_run made (some .plusOne) ({} : MainMemory)
  apply Machine.Run.step (a := .coherenceSetDirty 1) _ _ rfl
  · apply Machine.Run.step (a := .cacheFill 1 true) _ _ rfl
    · exact .step (a := .access none { addr := 64, op := .write }) .start trivial rfl
    · exact ⟨by decide +kernel, by decide +kernel⟩
  · intro wtwna
    cases wtwna

/-- A resident line of a WTWNA cache is marked. -/
def markedLine : Served Beneath.memory.toBelow :=
  (machine .memory).attempt (fresh { writePolicy := .wtwna } none)
    [.access none { addr := 64 }, .coherenceSetDirty 1]

/-- A block of which the byte address does not fit 64 bits is filled twice. -/
def doubledLine : Served Beneath.memory.toBelow :=
  (machine .memory).attempt (fresh {} none) [.cacheFill (2 ^ 58) false, .cacheFill (2 ^ 58) false]

theorem untidy :
    ((machine .memory).Reachable (fresh { writePolicy := .wtwna } none) markedLine ∧
        ¬Tidy markedLine.cache) ∧
      (machine .memory).Reachable (fresh {} none) doubledLine ∧ ¬Tidy doubledLine.cache := by
  refine ⟨⟨?_, fun tidy => ?_⟩, ?_, fun tidy => ?_⟩
  · exact Machine.Run.start.attempt_from (fun _ _ => trivial) _
  · have dirty : ∃ line ∈ markedLine.cache.rows 1, line.dirty = true := by decide +kernel
    obtain ⟨line, mem, dirty⟩ := dirty
    have clean := ((tidy.rows 1).lines line mem).clean rfl
    cases dirty.symm.trans clean
  · exact Machine.Run.start.attempt_from (fun _ _ => trivial) _
  · have doubled : ¬((doubledLine.cache.rows 0).map (·.tag)).Nodup := by decide +kernel
    exact doubled (tidy.rows 0).distinct

end Served

end Memory
