import Mathlib.Data.Nat.Bitwise
import MulticoreSim.Memory.Prefetch

/-! # Dirty lines of a write-back cache

What an access to a cache with the WBWA policy and no coherence sink does to its
dirty lines: one that leaves the cache is written to what is below.
-/

namespace Memory

theorem shiftLeft64_block {addr : Nat} (word : addr < 2 ^ 64) (b : Nat) :
    shiftLeft64 (addr >>> b) b = (addr >>> b) <<< b := by
  refine Nat.mod_eq_of_lt ?_
  rw [Nat.shiftLeft_eq, Nat.shiftRight_eq_div_pow]
  exact lt_of_le_of_lt (Nat.div_mul_le_self addr _) word

theorem shiftLeft64_lt (x n : Nat) : shiftLeft64 x n < 2 ^ 64 := Nat.mod_lt _ (by decide)

/-- Taking the first that meets `p` out of a list leaves the others. -/
theorem mem_eraseP_of_find {α : Type} {p : α → Bool} {l : List α} {x y : α}
    (found : l.find? p = some x) (mem : y ∈ l) : y = x ∨ y ∈ l.eraseP p := by
  induction l with
  | nil => cases mem
  | cons z rest ih =>
      cases first : p z with
      | true =>
          rw [List.find?_cons_of_pos first] at found
          cases found
          rw [List.eraseP_cons_of_pos first]
          exact List.mem_cons.mp mem
      | false =>
          rw [List.find?_cons_of_neg (by simp [first])] at found
          rw [List.eraseP_cons_of_neg (by simp [first]), List.mem_cons]
          rcases List.mem_cons.mp mem with rfl | mem
          · exact .inr (.inl rfl)
          · exact (ih found mem).imp_right .inr

namespace Cache

/-! ## Lines -/

/-- The block has a dirty line. -/
def Dirty (c : Cache) (X : Nat) : Prop :=
  ∃ line ∈ c.set X, c.isLine X line = true ∧ line.dirty = true

/-- The block is one of a 64-bit address. -/
def InWord (c : Cache) (X : Nat) : Prop := X <<< c.cfg.b < 2 ^ 64

/-- Every line stands in the set of its block, under the tag of its block. -/
def Indexed (c : Cache) : Prop :=
  ∀ i, ∀ line ∈ c.rows i, c.getIndex line.blockAddr = i ∧ line.tag = c.getTag line.blockAddr ∧
    c.InWord line.blockAddr

variable {c c' : Cache} {B X : Nat}

theorem inWord_block {addr : Nat} (word : addr < 2 ^ 64) : c.InWord (c.getBlockAddr addr) := by
  unfold InWord getBlockAddr
  rw [← shiftLeft64_block word]
  exact shiftLeft64_lt _ _

/-- A block is known by its tag and its index. -/
theorem block_unique {Y : Nat} (tag : c.getTag X = c.getTag Y) (index : c.getIndex X = c.getIndex Y) :
    X = Y := by
  unfold getIndex at index
  unfold getTag at tag
  rw [Nat.one_shiftLeft, Nat.and_two_pow_sub_one_eq_mod, Nat.and_two_pow_sub_one_eq_mod] at index
  rw [Nat.shiftRight_eq_div_pow, Nat.shiftRight_eq_div_pow] at tag
  rw [← Nat.div_add_mod X (2 ^ c.indexBit), ← Nat.div_add_mod Y (2 ^ c.indexBit), tag, index]

/-- The lines and the geometry are the same. -/
structure SameLines (c c' : Cache) : Prop where
  cfg : c'.cfg = c.cfg
  rows : c'.rows = c.rows

theorem SameLines.dirty (same : SameLines c c') : c'.Dirty X ↔ c.Dirty X := by
  simp only [Dirty, set, isLine, getTag, getIndex, indexBit, same.cfg, same.rows]

theorem SameLines.indexed (same : SameLines c c') (indexed : c.Indexed) : c'.Indexed := by
  simpa only [Indexed, InWord, getTag, getIndex, indexBit, same.cfg, same.rows] using indexed

theorem sameLines_bump (c : Cache) (f : CacheStats → CacheStats) : SameLines c (c.bump f) :=
  ⟨rfl, rfl⟩

@[simp] theorem setRow_cfg (c : Cache) (B : Nat) (row : List TagMeta) :
    (c.setRow B row).cfg = c.cfg := rfl

@[simp] theorem setRow_stats (c : Cache) (B : Nat) (row : List TagMeta) :
    (c.setRow B row).stats = c.stats := rfl

theorem setRow_rows (c : Cache) (B : Nat) (row : List TagMeta) (i : Nat) :
    (c.setRow B row).rows i = if i = c.getIndex B then row else c.rows i := by
  simp only [setRow, Function.update_apply]

theorem setRow_set (c : Cache) (B X : Nat) (row : List TagMeta) :
    (c.setRow B row).set X = if c.getIndex X = c.getIndex B then row else c.set X :=
  setRow_rows c B row (c.getIndex X)

/-- Dirty lines that are kept in the new row stay. -/
theorem dirty_setRow {row : List TagMeta} (dirty : c.Dirty X)
    (kept : c.getIndex X = c.getIndex B → ∀ line ∈ c.set B, c.isLine X line = true →
      line.dirty = true → ∃ line' ∈ row, c.isLine X line' = true ∧ line'.dirty = true) :
    (c.setRow B row).Dirty X := by
  obtain ⟨line, mem, isLine, marked⟩ := dirty
  unfold Dirty
  rw [setRow_set]
  split
  · next same =>
      rw [set, same] at mem
      exact kept same line mem isLine marked
  · exact ⟨line, mem, isLine, marked⟩

theorem indexed_setRow {row : List TagMeta} (indexed : c.Indexed)
    (lines : ∀ line ∈ row, c.getIndex line.blockAddr = c.getIndex B ∧
      line.tag = c.getTag line.blockAddr ∧ c.InWord line.blockAddr) : (c.setRow B row).Indexed := by
  intro i line mem
  rw [setRow_rows] at mem
  split at mem
  · next same =>
      rw [same]
      exact lines line mem
  · exact indexed i line mem

/-! ## Promoting and placing -/

/-- A rewriting of a line that keeps its block, and its dirty bit once set. -/
structure Keeps (f : TagMeta → TagMeta) : Prop where
  blockAddr : ∀ line, (f line).blockAddr = line.blockAddr
  tag : ∀ line, (f line).tag = line.tag
  valid : ∀ line, (f line).valid = line.valid
  dirty : ∀ line, line.dirty = true → (f line).dirty = true

theorem promote_stats (c : Cache) (B : Nat) (f : TagMeta → TagMeta) :
    (c.promote B f).stats = c.stats := by
  unfold promote
  split <;> rfl

theorem dirty_promote {f : TagMeta → TagMeta} (keeps : Keeps f) (dirty : c.Dirty X) :
    (c.promote B f).Dirty X := by
  unfold promote
  split
  · exact dirty
  · next found front =>
      refine dirty_setRow dirty fun _ line mem isLine marked => ?_
      rcases mem_eraseP_of_find front mem with rfl | mem
      · refine ⟨f line, List.mem_cons_self, ?_, keeps.dirty line marked⟩
        unfold Cache.isLine
        rw [keeps.tag, keeps.valid]
        exact isLine
      · exact ⟨line, List.mem_cons_of_mem _ mem, isLine, marked⟩

/-- The promoted line itself is dirty where it is rewritten to be. -/
theorem dirty_promoted {f : TagMeta → TagMeta} {line : TagMeta} (keeps : Keeps f)
    (found : (c.set B).find? (c.isLine B) = some line) (marked : (f line).dirty = true) :
    (c.promote B f).Dirty B := by
  have isLine := List.find?_some found
  unfold promote
  rw [found]
  dsimp only
  unfold Dirty
  rw [setRow_set, if_pos rfl]
  refine ⟨f line, List.mem_cons_self, ?_, marked⟩
  unfold Cache.isLine at isLine ⊢
  rw [keeps.tag, keeps.valid]
  exact isLine

theorem indexed_promote {f : TagMeta → TagMeta} (keeps : Keeps f) (indexed : c.Indexed) :
    (c.promote B f).Indexed := by
  unfold promote
  split
  · exact indexed
  · next found front =>
      refine indexed_setRow indexed fun line mem => ?_
      rcases List.mem_cons.mp mem with rfl | mem
      · have old := indexed _ found (List.mem_of_find?_eq_some front)
        rw [keeps.blockAddr, keeps.tag]
        exact old
      · exact indexed _ line (List.mem_of_mem_eraseP mem)

theorem mem_place {line line' : TagMeta} (mem : line ∈ c.set B) :
    line ∈ (match c.cfg.replacement with
      | .lruLip => c.set B ++ [line']
      | .lruMip => line' :: c.set B) := by
  split
  · exact List.mem_append_left _ mem
  · exact List.mem_cons_of_mem _ mem

theorem dirty_place {line : TagMeta} (dirty : c.Dirty X) : (c.place B line).Dirty X :=
  dirty_setRow dirty fun _ line mem isLine marked => ⟨line, mem_place mem, isLine, marked⟩

theorem dirty_placed {line : TagMeta} (isLine : c.isLine B line = true)
    (marked : line.dirty = true) : (c.place B line).Dirty B := by
  unfold Dirty place
  rw [setRow_set, if_pos rfl]
  refine ⟨line, ?_, isLine, marked⟩
  split <;> simp

theorem indexed_place {line : TagMeta} (indexed : c.Indexed) (block : line.blockAddr = B)
    (tag : line.tag = c.getTag B) (word : c.InWord B) : (c.place B line).Indexed := by
  refine indexed_setRow indexed fun line' mem => ?_
  have cases : line' = line ∨ line' ∈ c.set B := by
    split at mem
    · exact (List.mem_append.mp mem).symm.imp_left List.mem_singleton.mp
    · exact List.mem_cons.mp mem
  rcases cases with rfl | mem
  · rw [block]
    exact ⟨rfl, tag, word⟩
  · exact indexed _ line' mem

/-! ## Evicting -/

/-- Only the victim's own block can lose its dirty line. -/
theorem dirty_popped {victim : TagMeta} (indexed : c.Indexed)
    (last : (c.set B).getLast? = some victim) (dirty : c.Dirty X)
    (other : victim.dirty = true → X ≠ victim.blockAddr) :
    (c.setRow B (c.set B).dropLast).Dirty X := by
  refine dirty_setRow dirty fun same line mem isLine marked => ⟨line, ?_, isLine, marked⟩
  have whole : c.set B = (c.set B).dropLast ++ [victim] := by
    rw [← List.dropLast_append_getLast? victim last]
    simp
  rw [whole] at mem
  rcases List.mem_append.mp mem with mem | mem
  · exact mem
  · cases List.mem_singleton.mp mem
    obtain ⟨index, tag, -⟩ := indexed _ victim (List.mem_of_getLast? last)
    refine absurd (block_unique ?_ (same.trans index.symm)) (other marked)
    rw [← tag]
    simp only [Cache.isLine, Bool.and_eq_true, beq_iff_eq] at isLine
    exact isLine.1.symm

/-! ## Inserting and accessing -/

variable {β : Below}

/-- What is below always answers. -/
def Answers (β : Below) : Prop := ∀ below req, (β.access below req).isSome = true

/-- A plain write-back cache: the WBWA policy and no coherence sink. -/
structure WriteBack (cfg : Config) : Prop where
  wbwa : cfg.writePolicy = .wbwa
  plain : cfg.coherenceSink = false

/-- What a cache gives up: nothing, or a dirty victim that is written below. -/
inductive Spill (c : Cache) (below : β.State) (c' : Cache) (below' : β.State) : Prop where
  | none (same : below' = below) (stats : c'.stats = c.stats)
      (kept : ∀ X, c.Dirty X → c'.Dirty X)
  | victim {V : Nat} {result : AccessResult} {suspended : Bool} {calls : List SinkCall}
      (inWord : c.InWord V)
      (down : β.access below { addr := shiftLeft64 V c.cfg.b, op := .write } =
        some (below', result, suspended, calls))
      (stats : c'.stats = { c.stats with writebacks := c.stats.writebacks + 1 })
      (kept : ∀ X, c.Dirty X → X ≠ V → c'.Dirty X)

/-- A spill counts a writeback at most. -/
theorem Spill.counts {below below' : β.State} (spill : Spill c below c' below') :
    c'.stats.reads = c.stats.reads ∧ c'.stats.writes = c.stats.writes ∧
      c'.stats.misses = c.stats.misses := by
  cases spill with
  | none same stats kept =>
      rw [stats]
      exact ⟨rfl, rfl, rfl⟩
  | victim inWord down stats kept =>
      rw [stats]
      exact ⟨rfl, rfl, rfl⟩

structure Inserted (c : Cache) (below : β.State) (write : Bool) (B : Nat) (r : Result β) : Prop where
  cfg : r.cache.cfg = c.cfg
  indexed : r.cache.Indexed
  spill : Spill c below r.cache r.below
  fresh : write = true → r.cache.Dirty B

theorem evict_spill (answers : Answers β) (plain : c.cfg.coherenceSink = false)
    (indexed : c.Indexed) (below : β.State) (B : Nat) :
    (c.evictLru below B).cache.cfg = c.cfg ∧ (c.evictLru below B).cache.Indexed ∧
      Spill c below (c.evictLru below B).cache (c.evictLru below B).below := by
  unfold evictLru
  split
  · exact ⟨rfl, indexed, .none rfl rfl fun _ => id⟩
  · next victim last =>
      have mem := List.mem_of_getLast? last
      have popped : (c.setRow B (c.set B).dropLast).Indexed :=
        indexed_setRow indexed fun line mem => indexed _ line (List.dropLast_subset _ mem)
      dsimp only
      rw [plain, if_neg Bool.false_ne_true]
      split
      · next dirty =>
          have counted := (sameLines_bump (c.setRow B (c.set B).dropLast)
            fun st => { st with writebacks := st.writebacks + 1 })
          obtain ⟨⟨below', result, suspended, calls⟩, down⟩ := Option.isSome_iff_exists.mp
            (answers below { addr := shiftLeft64 victim.blockAddr c.cfg.b, op := .write })
          rw [down]
          refine ⟨rfl, counted.indexed popped, .victim (indexed _ victim mem).2.2 down rfl ?_⟩
          exact fun X marked other =>
            counted.dirty.mpr (dirty_popped indexed last marked fun _ => other)
      · next clean =>
          refine ⟨rfl, popped, .none rfl rfl ?_⟩
          exact fun X marked => dirty_popped indexed last marked fun dirty => absurd dirty clean

theorem insert_spec (answers : Answers β) (writeBack : WriteBack c.cfg) (indexed : c.Indexed)
    (word : c.InWord B) (below : β.State) (write isPrefetch : Bool) :
    Inserted c below write B (c.insertNewBlock below write B isPrefetch) := by
  have spilled : ∀ r : Result β, r.cache.cfg = c.cfg → r.cache.Indexed →
      Spill c below r.cache r.below → Inserted c below write B
        { r with cache := r.cache.place B ⟨B, c.getTag B, write, true, isPrefetch⟩ } := by
    intro r cfg indexed' spill
    have tag : c.getTag B = r.cache.getTag B := by
      simp only [getTag, indexBit, cfg]
    refine ⟨cfg, indexed_place indexed' rfl tag (by rwa [InWord, cfg]), ?_, ?_⟩
    · cases spill with
      | none same stats kept =>
          exact .none same stats fun X dirty => dirty_place (kept X dirty)
      | victim inWord down stats kept =>
          exact .victim inWord down stats fun X dirty other => dirty_place (kept X dirty other)
    · intro written
      exact dirty_placed (by simp [isLine, tag]) written
  simp only [insertNewBlock, writeBack.wbwa]
  split
  · obtain ⟨cfg, indexed', spill⟩ := evict_spill answers writeBack.plain indexed below B
    exact spilled _ cfg indexed' spill
  · exact spilled { cache := c, below } rfl indexed (.none rfl rfl fun _ => id)

/-- The counters that an access moves, but for the writebacks. -/
structure Counts (c c' : Cache) (req : MemReq) (miss : Nat) : Prop where
  reads : c'.stats.reads = c.stats.reads + if req.op.isWrite then 0 else 1
  writes : c'.stats.writes = c.stats.writes + if req.op.isWrite then 1 else 0
  misses : c'.stats.misses = c.stats.misses + miss

/-- What a level is asked for on a miss. -/
def fetchReq (c : Cache) (req : MemReq) : MemReq :=
  { addr := shiftLeft64 (c.getBlockAddr req.addr) c.cfg.b, pc := req.pc, originatingOp := req.op
    tid := req.tid }

/-- A hit, or a miss that is filled unless the answer is still to come. -/
inductive Accessed (c : Cache) (below : β.State) (req : MemReq) (r : Result β) : Prop where
  | hit (same : r.below = below) (lines : ∀ X, c.Dirty X → r.cache.Dirty X)
      (counts : Counts c r.cache req 0) (writebacks : r.cache.stats.writebacks = c.stats.writebacks)
      (written : req.op.isWrite = true → r.cache.Dirty (c.getBlockAddr req.addr))
  | suspended {sub : AccessResult} {calls : List SinkCall}
      (asked : β.access below (c.fetchReq req) = some (r.below, sub, true, calls))
  | filled {mid : β.State} {sub : AccessResult} {calls : List SinkCall} {c' : Cache}
      (asked : β.access below (c.fetchReq req) = some (mid, sub, false, calls))
      (same : SameLines c c') (counts : Counts c c' req 1)
      (writebacks : c'.stats.writebacks = c.stats.writebacks)
      (inserted : Inserted c' mid req.op.isWrite (c.getBlockAddr req.addr) r)

theorem fetch_spec {c₁ : Cache} {req : MemReq} (answers : Answers β) (writeBack : WriteBack c.cfg)
    (indexed : c.Indexed) (word : req.addr < 2 ^ 64) (below : β.State) (same : SameLines c c₁)
    (counts : Counts c c₁ req 1) (writebacks : c₁.stats.writebacks = c.stats.writebacks) :
    (c₁.fetch below req req.op.isWrite req.op).1.cache.cfg = c.cfg ∧
      (c₁.fetch below req req.op.isWrite req.op).1.cache.Indexed ∧
      Accessed c below req (c₁.fetch below req req.op.isWrite req.op).1 := by
  have block : c₁.getBlockAddr req.addr = c.getBlockAddr req.addr := by
    rw [getBlockAddr, same.cfg, getBlockAddr]
  have down : { addr := shiftLeft64 (c₁.getBlockAddr req.addr) c₁.cfg.b, pc := req.pc
                originatingOp := req.op, tid := req.tid } = c.fetchReq req := by
    rw [fetchReq, block, same.cfg]
  have word₁ : c₁.InWord (c.getBlockAddr req.addr) := by
    rw [InWord, same.cfg]
    exact inWord_block word
  unfold fetch
  dsimp only
  rw [down, block]
  obtain ⟨⟨mid, sub, suspended, calls⟩, asked⟩ :=
    Option.isSome_iff_exists.mp (answers below (c.fetchReq req))
  rw [asked]
  cases suspended with
  | true => exact ⟨same.cfg, same.indexed indexed, .suspended asked⟩
  | false =>
      have filled := insert_spec answers (same.cfg ▸ writeBack) (same.indexed indexed) word₁ mid
        req.op.isWrite false
      exact ⟨filled.cfg.trans same.cfg, filled.indexed, .filled asked same counts writebacks
        ⟨filled.cfg, filled.indexed, filled.spill, filled.fresh⟩⟩

theorem access_spec (answers : Answers β) (writeBack : WriteBack c.cfg) (indexed : c.Indexed)
    {req : MemReq} (word : req.addr < 2 ^ 64) (below : β.State) :
    (c.access below req).1.cache.cfg = c.cfg ∧ (c.access below req).1.cache.Indexed ∧
      Accessed c below req (c.access below req).1 := by
  obtain ⟨c₁, same₁, reads₁, writes₁, stats₁, eq⟩ : ∃ c₁ : Cache, SameLines c c₁ ∧
      c₁.stats.reads = c.stats.reads + (if req.op.isWrite then 0 else 1) ∧
      c₁.stats.writes = c.stats.writes + (if req.op.isWrite then 1 else 0) ∧
      (c₁.stats.misses = c.stats.misses ∧ c₁.stats.writebacks = c.stats.writebacks) ∧
      c.access below req = c₁.accessWbwa below req := by
    refine ⟨_, sameLines_bump c fun st => { st with
      accesses := st.accesses + 1
      reads := if req.op.isWrite then st.reads else st.reads + 1
      writes := if req.op.isWrite then st.writes + 1 else st.writes }, ?_, ?_, ⟨rfl, rfl⟩, ?_⟩
    · cases req.op.isWrite <;> rfl
    · cases req.op.isWrite <;> rfl
    · simp only [access, bump, writeBack.wbwa]
  have plain : c₁.cfg.coherenceSink = false := by
    rw [same₁.cfg]
    exact writeBack.plain
  have indexed₁ := same₁.indexed indexed
  have block : c₁.getBlockAddr req.addr = c.getBlockAddr req.addr := by
    rw [getBlockAddr, same₁.cfg, getBlockAddr]
  rw [eq]
  unfold accessWbwa
  dsimp only
  split
  · next line found =>
      -- A hit rewrites the line and puts it in front.
      have hit : ¬ (req.op.isWrite = true ∧ line.dirty = false ∧ c₁.cfg.coherenceSink = true) := by
        simp [plain]
      have keeps : Keeps fun l : TagMeta =>
          { l with prefetched := false, dirty := l.dirty || req.op.isWrite } :=
        ⟨fun _ => rfl, fun _ => rfl, fun _ => rfl, fun l dirty => by simp [dirty]⟩
      rw [if_neg hit]
      dsimp only
      have same₂ := sameLines_bump c₁ fun st => { st with
        hits := st.hits + 1
        prefetchHits := if line.prefetched then st.prefetchHits + 1 else st.prefetchHits }
      refine ⟨(promote_cfg _ _ _).trans same₁.cfg, indexed_promote keeps (same₂.indexed indexed₁),
        .hit rfl ?_ ⟨?_, ?_, ?_⟩ ?_ ?_⟩
      · exact fun X dirty => dirty_promote keeps (same₂.dirty.mpr (same₁.dirty.mpr dirty))
      · rw [promote_stats]
        exact reads₁
      · rw [promote_stats]
        exact writes₁
      · rw [promote_stats]
        exact stats₁.1
      · rw [promote_stats]
        exact stats₁.2
      · intro written
        rw [block] at found ⊢
        exact dirty_promoted keeps found (by simp [written])
  · -- A miss asks below.
    exact fetch_spec answers writeBack indexed word below
      ⟨same₁.cfg, same₁.rows⟩ ⟨reads₁, writes₁, congrArg (· + 1) stats₁.1⟩ stats₁.2

end Cache

end Memory
