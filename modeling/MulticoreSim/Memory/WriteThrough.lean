import MulticoreSim.Memory.Prefetch

/-! # Writes to a write-through cache

What a cache with the WTWNA policy asks of the level below it. It fetches what
its reads miss; its writes it keeps to itself.
-/

namespace Memory

/-- A level that keeps what it was asked. -/
def Below.logged (β : Below) : Below where
  State := β.State × List MemReq
  access st req :=
    (β.access st.1 req).map fun (below, result, suspended, calls) =>
      ((below, st.2 ++ [req]), result, suspended, calls)

/-- A cache with its prefetcher, over what is below it. -/
structure Served (β : Below) where
  cache : Cache
  prefetcher : Option Prefetcher
  below : β.State

namespace Served

variable {β : Below}

/-- A request, with the cache above as it is then. -/
def serve (s : Served β) (peer : Option Cache) (req : MemReq) : Served β :=
  let (r, prefetcher, _) := s.cache.accessPrefetching s.prefetcher peer s.below req
  { cache := r.cache, prefetcher, below := r.below }

def serveAll (s : Served β) (demands : List (Option Cache × MemReq)) : Served β :=
  demands.foldl (fun s d => s.serve d.1 d.2) s

end Served

variable {β : Below}

/-- The writes that were seen below. -/
def writesBelow (st : β.logged.State) : List MemReq := st.2.filter (·.op.isWrite)

namespace Cache

/-- Below a write-through cache no more writes are seen, and it stays one. -/
structure Quiet (cfg : Config) (below : β.logged.State) (r : Result β.logged) : Prop where
  cfg : r.cache.cfg = cfg
  writes : writesBelow r.below = writesBelow below

theorem dropLru_cfg (c : Cache) (blockAddr : Nat) : (c.dropLru blockAddr).cfg = c.cfg := by
  unfold dropLru
  split
  · dsimp only
    split <;> rfl
  · rfl

variable {c : Cache}

theorem quiet_insert (wtwna : c.cfg.writePolicy = .wtwna) (below : β.logged.State) (write : Bool)
    (blockAddr : Nat) (isPrefetch : Bool) :
    Quiet c.cfg below (c.insertNewBlock below write blockAddr isPrefetch) := by
  simp only [insertNewBlock, wtwna]
  refine ⟨?_, rfl⟩
  change (if _ then _ else _ : Cache).cfg = _
  split
  · exact dropLru_cfg c blockAddr
  · rfl

theorem logged_access {below next : β.logged.State} {req : MemReq} {sub : AccessResult}
    {suspended : Bool} {calls : List SinkCall} (read : req.op.isWrite = false)
    (asked : β.logged.access below req = some (next, sub, suspended, calls)) :
    writesBelow next = writesBelow below := by
  obtain ⟨⟨inner, _⟩, found, eq⟩ := Option.map_eq_some_iff.mp asked
  cases eq
  simp [writesBelow, read]

theorem quiet_fetch {cfg : Config} (same : c.cfg = cfg) (wtwna : cfg.writePolicy = .wtwna)
    (below : β.logged.State) (req : MemReq) (write : Bool) (originatingOp : Op) :
    Quiet cfg below (c.fetch below req write originatingOp).1 := by
  subst same
  unfold fetch
  dsimp only
  split
  · next next sub suspended calls asked =>
      have same := logged_access rfl asked
      split
      · exact ⟨rfl, same⟩
      · have filled := quiet_insert wtwna next write (c.getBlockAddr req.addr) false
        exact ⟨filled.cfg, filled.writes.trans same⟩
  · split
    · exact ⟨rfl, rfl⟩
    · have filled := quiet_insert wtwna below write (c.getBlockAddr req.addr) false
      exact ⟨filled.cfg, filled.writes⟩

theorem quiet_access (wtwna : c.cfg.writePolicy = .wtwna) (below : β.logged.State)
    (req : MemReq) : Quiet c.cfg below (c.access below req).1 := by
  simp only [access, bump, wtwna, accessWtwna]
  split
  · exact ⟨promote_cfg _ _ _, rfl⟩
  · split
    · exact ⟨promote_cfg _ _ _, rfl⟩
    · refine quiet_fetch ?_ wtwna below req false .read
      rfl

theorem quiet_prefetching (wtwna : c.cfg.writePolicy = .wtwna) (pf : Option Prefetcher)
    (peer : Option Cache) (below : β.logged.State) (req : MemReq) :
    Quiet c.cfg below (c.accessPrefetching pf peer below req).1 := by
  have demand := quiet_access wtwna below req
  unfold accessPrefetching
  dsimp only
  split
  · exact demand
  · split
    · split
      · exact demand
      · next prefetcher addr _ =>
          have wtwna' : (c.access below req).1.cache.cfg.writePolicy = .wtwna := by
            rw [demand.cfg]
            exact wtwna
          dsimp only
          unfold issuePrefetch
          split
          · exact ⟨demand.cfg, demand.writes⟩
          · have filled := quiet_insert wtwna' (c.access below req).1.below false
              ((c.access below req).1.cache.getBlockAddr addr) true
            exact ⟨filled.cfg.trans demand.cfg, filled.writes.trans demand.writes⟩
    · exact demand

end Cache

namespace Served

theorem writes_serveAll (s : Served β.logged) (wtwna : s.cache.cfg.writePolicy = .wtwna)
    (demands : List (Option Cache × MemReq)) :
    writesBelow (s.serveAll demands).below = writesBelow s.below := by
  induction demands generalizing s with
  | nil => rfl
  | cons d rest ih =>
      have step := Cache.quiet_prefetching wtwna s.prefetcher d.1 s.below d.2
      have kept : (s.serve d.1 d.2).cache.cfg.writePolicy = .wtwna := by
        rw [serve, step.cfg]
        exact wtwna
      rw [serveAll, List.foldl_cons]
      exact (ih (s.serve d.1 d.2) kept).trans step.writes

/-- Below a write-through cache as many writes are seen as it received just when it
    received none. -/
theorem writes_through_iff (cache : Cache) (wtwna : cache.cfg.writePolicy = .wtwna)
    (prefetcher : Option Prefetcher) (below : β.State) (demands : List (Option Cache × MemReq)) :
    (writesBelow (serveAll (β := β.logged) ⟨cache, prefetcher, (below, [])⟩ demands).below).length =
      (demands.filter (·.2.op.isWrite)).length ↔ ∀ d ∈ demands, d.2.op ≠ .write := by
  rw [writes_serveAll _ wtwna]
  have none : (writesBelow (β := β) (below, [])).length = 0 := rfl
  rw [none, eq_comm, List.length_eq_zero_iff, List.filter_eq_nil_iff]
  simp [Op.isWrite]

/-- A write to a write-through cache over the main memory. -/
def oneWrite : Served Below.memory.logged :=
  serveAll ⟨Cache.build { writePolicy := .wtwna }, none, ({}, [])⟩
    [(none, { addr := 64, op := .write })]

/-- The cache counts the write, and the memory sees none. -/
theorem write_kept_back : oneWrite.cache.stats.writes = 1 ∧ oneWrite.below.1.stats.writes = 0 ∧
    (writesBelow oneWrite.below).length ≠
      ([(none, { addr := 64, op := .write })] : List (Option Cache × MemReq)).length := by
  refine ⟨rfl, rfl, ?_⟩
  decide

theorem writes_through_iff_read_write :
    (writesBelow (serveAll (β := Below.memory.logged)
      ⟨Cache.build { writePolicy := .wtwna }, some .plusOne, (({} : MainMemory), [])⟩
      [(none, { addr := 0 }), (none, { addr := 64, op := .write })]).below).length = 1 ↔
      ∀ d ∈ ([(none, { addr := 0 }), (none, { addr := 64, op := .write })] :
        List (Option Cache × MemReq)), d.2.op ≠ .write :=
  writes_through_iff (β := Below.memory) (Cache.build { writePolicy := .wtwna }) rfl (some .plusOne)
    ({} : MainMemory) _

end Served

end Memory
