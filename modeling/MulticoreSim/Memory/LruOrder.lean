import MulticoreSim.Library.Recency
import MulticoreSim.Memory.CacheRuns

/-! # True LRU

The sets of a WBWA cache with MIP insertion, against the history of the blocks
it was asked for. An access that the level below suspends leaves the sets as
they are, and is not part of the history.
-/

namespace Memory

namespace Cache

variable {β : Below} {c c' : Cache} {B i : Nat} {row : List TagMeta}

/-- The blocks of a set, most recently used first. -/
def blocks (c : Cache) (i : Nat) : List Nat := (c.rows i).map (·.blockAddr)

/-- In its own set a block's line is told by the block. -/
theorem LineAt.isLine_eq {line : TagMeta} (here : c.LineAt (c.getIndex B) line) :
    c.isLine B line = (line.blockAddr == B) := by
  rw [Bool.eq_iff_iff, isLine, Bool.and_eq_true, beq_iff_eq, beq_iff_eq]
  constructor
  · rintro ⟨tag, -⟩
    exact block_unique (here.tag.trans tag) here.index
  · intro same
    subst same
    exact ⟨here.tag.symm, here.valid⟩

theorem WellFormed.isInCache_iff (ok : c.WellFormed) :
    c.isInCache B = true ↔ B ∈ c.blocks (c.getIndex B) := by
  rw [isInCache, List.any_eq_true, blocks, List.mem_map]
  apply exists_congr
  intro line
  apply and_congr_right
  intro mem
  rw [((ok _).lines line mem).isLine_eq, beq_iff_eq]

theorem eraseP_blocks (lines : ∀ line ∈ row, c.LineAt (c.getIndex B) line) :
    (row.eraseP (c.isLine B)).map (·.blockAddr) = (row.map (·.blockAddr)).erase B := by
  induction row with
  | nil => rfl
  | cons line rest ih =>
      have rest_eq := ih fun other mem => lines other (List.mem_cons_of_mem _ mem)
      have test := (lines line List.mem_cons_self).isLine_eq
      rw [List.map_cons, List.erase_cons, List.eraseP_cons, test]
      cases line.blockAddr == B with
      | true => rfl
      | false => exact congrArg _ rest_eq

/-! ## What a call does to the blocks -/

/-- The block is used: it comes to the front of its set, and the last one makes room. -/
def Touches (c : Cache) (B : Nat) (c' : Cache) : Prop :=
  ∀ i, c'.blocks i = if i = c.getIndex B then touch c.assoc (c.blocks i) B else c.blocks i

theorem blocks_setRow (c : Cache) (B : Nat) (row : List TagMeta) (i : Nat) :
    (c.setRow B row).blocks i = if i = c.getIndex B then row.map (·.blockAddr) else c.blocks i := by
  rw [blocks, setRow_rows]
  split <;> rfl

theorem WellFormed.promote_touches (ok : c.WellFormed) {f : TagMeta → TagMeta} {line : TagMeta}
    (found : (c.set B).find? (c.isLine B) = some line) (same : (f line).blockAddr = line.blockAddr) :
    c.Touches B (c.promote B f) := by
  intro i
  have mem := List.mem_of_find?_eq_some found
  have block : line.blockAddr = B := by
    have test := List.find?_some found
    rwa [((ok _).lines line mem).isLine_eq, beq_iff_eq] at test
  have resident : B ∈ c.blocks (c.getIndex B) := List.mem_map.mpr ⟨line, mem, block⟩
  unfold Cache.promote
  rw [found]
  simp only
  rw [blocks_setRow]
  split
  · next own =>
      subst own
      rw [touch, if_pos resident, List.map_cons, same, block]
      exact congrArg _ (eraseP_blocks (ok _).lines)
  · rfl

theorem blocks_place (mip : c.cfg.replacement = .lruMip) (line : TagMeta) (i : Nat) :
    (c.place B line).blocks i =
      if i = c.getIndex B then line.blockAddr :: c.blocks i else c.blocks i := by
  unfold Cache.place
  rw [mip, blocks_setRow]
  split
  · next own =>
      subst own
      rfl
  · rfl

variable {below : β.State} {req : MemReq}

/-- A write-back cache with MIP insertion, and no sink. -/
structure TrueLru (cfg : Config) : Prop where
  writeBack : WriteBack cfg
  mip : cfg.replacement = .lruMip

theorem evict_rows (below : β.State) (plain : c.cfg.coherenceSink = false) (full : (c.set B).length = c.assoc) :
    (c.evictLru below B).cache.rows = (c.setRow B (c.set B).dropLast).rows ∧
      (c.evictLru below B).cache.cfg = c.cfg := by
  unfold evictLru
  split
  · next none =>
      rw [List.getLast?_eq_none_iff] at none
      rw [none] at full
      exact absurd full.symm (by simp [assoc])
  · next victim _ =>
      simp only [plain, Bool.false_eq_true, if_false]
      cases victim.dirty with
      | true =>
          simp only [if_true]
          split <;> exact ⟨rfl, rfl⟩
      | false => exact ⟨rfl, rfl⟩

theorem WellFormed.insert_touches (ok : c.WellFormed) (lru : TrueLru c.cfg) (write prefetch : Bool)
    (missing : c.isInCache B = false) :
    c.Touches B (c.insertNewBlock below write B prefetch).cache := by
  have outside : B ∉ c.blocks (c.getIndex B) := by
    rw [← ok.isInCache_iff]
    simp [missing]
  have length : (c.blocks (c.getIndex B)).length = (c.set B).length := List.length_map _
  intro i
  simp only [insertNewBlock, lru.writeBack.wbwa]
  split
  · next full =>
      obtain ⟨rows, cfg⟩ := evict_rows below lru.writeBack.plain full
      have index : (c.evictLru below B).cache.getIndex B = c.getIndex B := by
        rw [getIndex, indexBit, cfg]
        rfl
      have popped : (c.evictLru below B).cache.blocks i =
          if i = c.getIndex B then (c.blocks i).dropLast else c.blocks i := by
        rw [blocks, rows]
        change (c.setRow B (c.set B).dropLast).blocks i = _
        rw [blocks_setRow]
        split
        · next own =>
            subst own
            exact List.map_dropLast
        · rfl
      rw [blocks_place (by rw [cfg]; exact lru.mip), index, popped]
      split
      · next own =>
          subst own
          rw [touch, if_neg outside, if_pos (by rw [length, full])]
      · rfl
  · next short =>
      simp only
      rw [blocks_place lru.mip]
      split
      · next own =>
          subst own
          have room : ¬c.assoc ≤ (c.blocks (c.getIndex B)).length := by
            rw [length]
            exact Nat.not_le_of_lt (lt_of_le_of_ne (ok.set B).bounded short)
          rw [touch, if_neg outside, if_neg room]
      · rfl

/-! ## Accesses -/

/-- The level below answers the access with the sentinel: its block comes later. -/
def suspends (c : Cache) (below : β.State) (req : MemReq) : Bool :=
  !c.isInCache (c.getBlockAddr req.addr) &&
    (β.access below (c.fetchReq req)).any fun (_, _, suspended, _) => suspended

/-- What an access does to the blocks, and whether it hits. -/
structure Uses (c : Cache) (below : β.State) (req : MemReq) (x : Result β × AccessResult) : Prop where
  cfg : x.1.cache.cfg = c.cfg
  hit : x.2.hit = c.isInCache (c.getBlockAddr req.addr)
  suspended : c.suspends below req = true → x.1.cache.rows = c.rows
  touches : c.suspends below req = false → c.Touches (c.getBlockAddr req.addr) x.1.cache

/-- Counters are not looked at. -/
theorem Uses.of_bump {f : CacheStats → CacheStats} {x : Result β × AccessResult}
    (uses : (c.bump f).Uses below req x) : c.Uses below req x :=
  ⟨uses.cfg, uses.hit, uses.suspended, uses.touches⟩

theorem uses_fetch (ok : c.WellFormed) (lru : TrueLru c.cfg) (below : β.State) (req : MemReq)
    (missing : c.isInCache (c.getBlockAddr req.addr) = false) :
    c.Uses below req (c.fetch below req req.op.isWrite req.op) := by
  have asks : c.suspends below req =
      (β.access below (c.fetchReq req)).any fun (_, _, suspended, _) => suspended := by
    simp [suspends, missing]
  have filled (below' : β.State) :
      (c.insertNewBlock below' req.op.isWrite (c.getBlockAddr req.addr) false).cache.cfg = c.cfg ∧
        c.Touches (c.getBlockAddr req.addr)
          (c.insertNewBlock below' req.op.isWrite (c.getBlockAddr req.addr) false).cache :=
    ⟨(sameDemands_insert _ _ _ _ _).cfg, ok.insert_touches lru _ _ missing⟩
  unfold Cache.fetch
  simp only [lru.writeBack.plain, Bool.false_eq_true, if_false]
  have down : { addr := shiftLeft64 (c.getBlockAddr req.addr) c.cfg.b, pc := req.pc
                originatingOp := req.op, tid := req.tid } = c.fetchReq req := rfl
  rw [down]
  cases answer : β.access below (c.fetchReq req) with
  | none =>
      obtain ⟨cfg, touches⟩ := filled below
      rw [answer] at asks
      refine ⟨cfg, missing.symm, fun suspends => ?_, fun _ => touches⟩
      cases asks.symm.trans suspends
  | some answered =>
      obtain ⟨below', sub, suspended, calls⟩ := answered
      rw [answer] at asks
      cases suspended with
      | true =>
          refine ⟨rfl, missing.symm, fun _ => rfl, fun served => ?_⟩
          cases asks.symm.trans served
      | false =>
          obtain ⟨cfg, touches⟩ := filled below'
          refine ⟨cfg, missing.symm, fun suspends => ?_, fun _ => touches⟩
          cases asks.symm.trans suspends

theorem uses_accessWbwa (ok : c.WellFormed) (lru : TrueLru c.cfg) (below : β.State) (req : MemReq) :
    c.Uses below req (c.accessWbwa below req) := by
  unfold Cache.accessWbwa
  simp only [lru.writeBack.plain, Bool.false_eq_true, and_false, if_false]
  split
  · next line found =>
      have resident : c.isInCache (c.getBlockAddr req.addr) = true := by
        rw [isInCache_eq, found]
        rfl
      have served : c.suspends below req = false := by simp [suspends, resident]
      refine ⟨promote_cfg _ _ _, resident.symm, fun suspends => ?_, fun _ => ?_⟩
      · cases served.symm.trans suspends
      · have counted : (c.bump fun st => { st with
            hits := st.hits + 1
            prefetchHits := if line.prefetched then st.prefetchHits + 1 else st.prefetchHits }).WellFormed :=
          ok.of_same rfl rfl
        exact counted.promote_touches found rfl
  · next none =>
      have counted : (c.bump fun st => { st with misses := st.misses + 1 }).WellFormed :=
        ok.of_same rfl rfl
      exact (uses_fetch counted lru below req (not_isInCache none)).of_bump

theorem uses_access (ok : c.WellFormed) (lru : TrueLru c.cfg) (below : β.State) (req : MemReq) :
    c.Uses below req (c.access below req) := by
  have counted : (c.bump fun st => { st with
      accesses := st.accesses + 1
      reads := if req.op.isWrite then st.reads else st.reads + 1
      writes := if req.op.isWrite then st.writes + 1 else st.writes }).WellFormed := ok.of_same rfl rfl
  have uses := (uses_accessWbwa counted lru below req).of_bump
  unfold Cache.access
  simp only [bump, lru.writeBack.wbwa]
  exact uses

end Cache

/-! ## Runs -/

/-- A cache with what is below it, and the blocks of the accesses that were not suspended,
    oldest first. -/
structure History (β : Beneath) where
  cache : Cache
  below : β.State
  used : List Nat

namespace History

variable {β : Beneath}

def access (h : History β) (req : MemReq) : History β :=
  let (r, _) := h.cache.access (β := β.toBelow) (β.look h.below h.cache) req
  { cache := r.cache
    below := r.below
    used :=
      if h.cache.suspends (β := β.toBelow) (β.look h.below h.cache) req then h.used
      else h.used ++ [h.cache.getBlockAddr req.addr] }

def run (h : History β) (reqs : List MemReq) : History β := reqs.foldl access h

/-- The history of one set. -/
def ofSet (h : History β) (i : Nat) : List Nat := h.used.filter (h.cache.getIndex · = i)

/-- Every set holds the blocks that were used in it last, in that order. -/
structure Ordered (cfg : Config) (h : History β) : Prop where
  same : h.cache.cfg = cfg
  ok : h.cache.WellFormed
  order : ∀ i, h.cache.blocks i = (recent (h.ofSet i)).take (2 ^ cfg.s)

theorem ordered_access {cfg : Config} {h : History β} (lru : Cache.TrueLru cfg) (ordered : Ordered cfg h)
    (req : MemReq) : Ordered cfg (h.access req) := by
  obtain ⟨same, ok, order⟩ := ordered
  have uses := Cache.uses_access (β := β.toBelow) ok (same ▸ lru) (β.look h.below h.cache) req
  have index (B : Nat) : (h.access req).cache.getIndex B = h.cache.getIndex B := by
    simp only [Cache.getIndex, Cache.indexBit, access, uses.cfg]
  refine ⟨uses.cfg.trans same, ok.access (β := β.toBelow) _ _, fun i => ?_⟩
  cases answered : h.cache.suspends (β := β.toBelow) (β.look h.below h.cache) req with
  | true =>
      have used : (h.access req).ofSet i = h.ofSet i := by
        simp only [ofSet, index]
        simp only [access, answered, if_true]
      rw [used, ← order i, Cache.blocks, access, uses.suspended answered]
      rfl
  | false =>
      have used : (h.access req).ofSet i = if i = h.cache.getIndex (h.cache.getBlockAddr req.addr) then
          h.ofSet i ++ [h.cache.getBlockAddr req.addr] else h.ofSet i := by
        simp only [ofSet, index]
        simp only [access, answered, Bool.false_eq_true, if_false, List.filter_append]
        split
        · next own => simp [own]
        · next other => simp [Ne.symm other]
      have touched := uses.touches answered i
      have room : h.cache.assoc = 2 ^ cfg.s := by rw [Cache.assoc, same, Nat.one_shiftLeft]
      change Cache.blocks _ i = _ at touched
      rw [used]
      change Cache.blocks (h.cache.access (β := β.toBelow) (β.look h.below h.cache) req).1.cache i = _
      rw [touched]
      split
      · rw [order i, room, recent_snoc]
        exact touch_take _ (Nat.two_pow_pos _) _
      · exact order i

theorem ordered_run {cfg : Config} {h : History β} (lru : Cache.TrueLru cfg) (ordered : Ordered cfg h)
    (reqs : List MemReq) : Ordered cfg (h.run reqs) := by
  induction reqs generalizing h with
  | nil => exact ordered
  | cons req rest ih => exact ih (ordered_access lru ordered req)

/-- An access hits just when its block was used before, and fewer than `2 ^ s` distinct others
    of its set have been since; a set holds its blocks in order of last use. -/
theorem true_lru {cfg : Config} (lru : Cache.TrueLru cfg) (below : β.State) (reqs : List MemReq)
    (req : MemReq) :
    let h := run ⟨Cache.build cfg, below, []⟩ reqs
    let block := h.cache.getBlockAddr req.addr
    let history := h.ofSet (h.cache.getIndex block)
    ((h.cache.access (β := β.toBelow) (β.look h.below h.cache) req).2.hit = true ↔
        block ∈ history ∧ (since history block).toFinset.card < 2 ^ cfg.s) ∧
      ∀ i, h.cache.blocks i = (recent (h.ofSet i)).take (2 ^ cfg.s) := by
  intro h block history
  have start : Ordered cfg (⟨Cache.build cfg, below, []⟩ : History β) :=
    ⟨rfl, (Served.tidy_build cfg).rows, fun i => List.take_nil.symm⟩
  have ordered : Ordered cfg h := ordered_run lru start reqs
  have lru : Cache.TrueLru h.cache.cfg := by
    rw [ordered.same]
    exact lru
  refine ⟨?_, ordered.order⟩
  have uses := Cache.uses_access (β := β.toBelow) ordered.ok lru (β.look h.below h.cache) req
  rw [uses.hit, ordered.ok.isInCache_iff, ordered.order]
  exact mem_take_recent _ _ _

/-- Two ways, and three blocks of one set. -/
theorem true_lru_two_ways :
    let h := run (β := .memory) ⟨Cache.build {}, ({} : MainMemory), []⟩
      [{ addr := 0 }, { addr := 512, op := .write }, { addr := 0 }, { addr := 1024 }]
    let block := h.cache.getBlockAddr 512
    let history := h.ofSet (h.cache.getIndex block)
    ((h.cache.access (β := .memory) h.below { addr := 512 }).2.hit = true ↔
        block ∈ history ∧ (since history block).toFinset.card < 2 ^ 1) ∧
      ∀ i, h.cache.blocks i = (recent (h.ofSet i)).take (2 ^ 1) :=
  true_lru ⟨⟨rfl, rfl⟩, rfl⟩ _ _ _

/-- A first access that an L2 with a sink suspends. -/
def suspendedOnce : Cache.Result .cache :=
  ((Cache.build {}).access (β := .cache) (some (Cache.build { coherenceSink := true })) { addr := 64 }).1

/-- The second access to the block misses, though nothing else was accessed. -/
theorem suspended_misses :
    ¬((suspendedOnce.cache.access suspendedOnce.below { addr := 64 }).2.hit = true ↔
        1 ∈ [1] ∧ (since [1] 1).toFinset.card < 2 ^ suspendedOnce.cache.cfg.s) := by
  have miss : (suspendedOnce.cache.access suspendedOnce.below { addr := 64 }).2.hit = false := by
    decide +kernel
  rw [miss]
  decide

end History

end Memory
