import MulticoreSim.Memory.Levels
import Mathlib.Data.List.Perm.Basic

/-! # The sets of a cache

Every set holds valid lines of its own blocks, each block once and no more than
there are ways, and the counters of hits and misses add up. This is so after
whatever is done to the cache, but for two operations that the class offers and
does not guard.
-/

namespace Memory

/-- The first that meets a test may as well stand in front. -/
theorem perm_eraseP {α : Type} {p : α → Bool} {l : List α} {x : α} (found : l.find? p = some x) :
    l.Perm (x :: l.eraseP p) := by
  induction l with
  | nil => cases found
  | cons y rest ih =>
      cases here : p y with
      | true =>
          rw [List.find?_cons_of_pos here] at found
          cases found
          rw [List.eraseP_cons_of_pos here]
      | false =>
          rw [List.find?_cons_of_neg (by simp [here])] at found
          rw [List.eraseP_cons_of_neg (by simp [here])]
          exact ((ih found).cons y).trans (.swap x y _)

namespace Cache

variable {c c' : Cache} {i B : Nat} {row row' : List TagMeta} {line : TagMeta}

/-! ## One set -/

/-- A line that belongs to set `i`. -/
structure LineAt (c : Cache) (i : Nat) (line : TagMeta) : Prop where
  valid : line.valid = true
  tag : c.getTag line.blockAddr = line.tag
  index : c.getIndex line.blockAddr = i
  clean : c.cfg.writePolicy = .wtwna → line.dirty = false

/-- A well-formed set. -/
structure RowAt (c : Cache) (i : Nat) (row : List TagMeta) : Prop where
  bounded : row.length ≤ c.assoc
  lines : ∀ line ∈ row, c.LineAt i line
  distinct : (row.map (·.tag)).Nodup

theorem RowAt.sublist (ok : c.RowAt i row) (sub : row'.Sublist row) : c.RowAt i row' where
  bounded := sub.length_le.trans ok.bounded
  lines line mem := ok.lines line (sub.subset mem)
  distinct := ok.distinct.sublist (sub.map _)

theorem RowAt.perm (ok : c.RowAt i row) (perm : row.Perm row') : c.RowAt i row' where
  bounded := perm.length_eq ▸ ok.bounded
  lines line mem := ok.lines line (perm.mem_iff.mpr mem)
  distinct := (perm.map _).nodup_iff.mp ok.distinct

/-- A line that is rewritten under its tag. -/
theorem RowAt.rewrite {rest : List TagMeta} (ok : c.RowAt i (line :: rest)) {line' : TagMeta}
    (tag : line'.tag = line.tag) (here : c.LineAt i line') : c.RowAt i (line' :: rest) where
  bounded := ok.bounded
  lines other mem := by
    rcases List.mem_cons.mp mem with rfl | mem
    · exact here
    · exact ok.lines other (List.mem_cons_of_mem _ mem)
  distinct := by
    have old := ok.distinct
    rw [List.map_cons] at old ⊢
    rwa [tag]

/-- A line of a new tag, where there is a way for it. -/
theorem RowAt.cons (ok : c.RowAt i row) (here : c.LineAt i line) (new : ∀ other ∈ row, other.tag ≠ line.tag)
    (room : row.length < c.assoc) : c.RowAt i (line :: row) where
  bounded := room
  lines other mem := by
    rcases List.mem_cons.mp mem with rfl | mem
    · exact here
    · exact ok.lines other mem
  distinct := by
    rw [List.map_cons]
    apply List.nodup_cons.mpr
    constructor
    · intro mem
      obtain ⟨other, mem, same⟩ := List.mem_map.mp mem
      exact new other mem same
    · exact ok.distinct

/-! ## All sets -/

/-- Every set is well-formed. -/
def WellFormed (c : Cache) : Prop := ∀ i, c.RowAt i (c.rows i)

theorem LineAt.of_cfg (cfg : c'.cfg = c.cfg) (here : c.LineAt i line) : c'.LineAt i line := by
  obtain ⟨valid, tag, index, clean⟩ := here
  refine ⟨valid, ?_, ?_, ?_⟩
  · simpa only [getTag, indexBit, cfg] using tag
  · simpa only [getIndex, indexBit, cfg] using index
  · rwa [cfg]

theorem RowAt.of_cfg (cfg : c'.cfg = c.cfg) (ok : c.RowAt i row) : c'.RowAt i row := by
  refine ⟨?_, fun line mem => (ok.lines line mem).of_cfg cfg, ok.distinct⟩
  have bounded := ok.bounded
  rwa [assoc, cfg]

theorem WellFormed.of_same (ok : c.WellFormed) (cfg : c'.cfg = c.cfg) (rows : c'.rows = c.rows) :
    c'.WellFormed := by
  intro i
  rw [rows]
  exact (ok i).of_cfg cfg

theorem WellFormed.setRow (ok : c.WellFormed) (here : c.RowAt (c.getIndex B) row) :
    (c.setRow B row).WellFormed := by
  intro i
  apply RowAt.of_cfg (setRow_cfg c B row)
  rw [setRow_rows]
  split
  · next own => rwa [own]
  · exact ok i

theorem WellFormed.set (ok : c.WellFormed) (B : Nat) : c.RowAt (c.getIndex B) (c.set B) := ok _

/-- In a well-formed set the block's line is the one with its tag. -/
theorem WellFormed.absent (ok : c.WellFormed) (missing : c.isInCache B = false) :
    ∀ other ∈ c.set B, other.tag ≠ c.getTag B := by
  intro other mem same
  have valid := ((ok.set B).lines other mem).valid
  simp only [isInCache, isLine, List.any_eq_false, Bool.and_eq_true, beq_iff_eq, not_and] at missing
  exact missing other mem same valid

theorem isInCache_eq (c : Cache) (B : Nat) :
    c.isInCache B = ((c.set B).find? (c.isLine B)).isSome := by
  rw [Bool.eq_iff_iff, List.find?_isSome, isInCache, List.any_eq_true]

/-! ## Promoting and marking -/

/-- A rewriting that keeps a line where it belongs. -/
structure Settles (c : Cache) (f : TagMeta → TagMeta) : Prop where
  tag : ∀ line, (f line).tag = line.tag
  here : ∀ i line, c.LineAt i line → c.LineAt i (f line)

theorem Settles.of_fields {f : TagMeta → TagMeta}
    (fields : ∀ line, (f line).blockAddr = line.blockAddr ∧ (f line).tag = line.tag ∧
      (f line).valid = line.valid)
    (clean : c.cfg.writePolicy = .wtwna → ∀ line, line.dirty = false → (f line).dirty = false) :
    c.Settles f where
  tag line := (fields line).2.1
  here i line at_ := by
    obtain ⟨block, tag, valid⟩ := fields line
    constructor
    · rw [valid]
      exact at_.valid
    · rw [block, tag]
      exact at_.tag
    · rw [block]
      exact at_.index
    · exact fun through => clean through line (at_.clean through)

theorem WellFormed.promote (ok : c.WellFormed) {f : TagMeta → TagMeta} (settles : c.Settles f) (B : Nat) :
    (c.promote B f).WellFormed := by
  unfold Cache.promote
  split
  · exact ok
  · next line found =>
      apply ok.setRow
      have front := (ok.set B).perm (perm_eraseP found)
      exact front.rewrite (settles.tag line) (settles.here _ line (front.lines line List.mem_cons_self))

theorem RowAt.modifyFirst (ok : c.RowAt i row) {p : TagMeta → Bool} {f : TagMeta → TagMeta}
    (tag : ∀ line, (f line).tag = line.tag)
    (here : ∀ line ∈ row, p line = true → c.LineAt i (f line)) : c.RowAt i (modifyFirst p f row) := by
  have tags : (Memory.modifyFirst p f row).map (·.tag) = row.map (·.tag) := by
    clear ok here
    induction row with
    | nil => rfl
    | cons line rest ih =>
        unfold Memory.modifyFirst
        split
        · simp [tag]
        · simp [ih]
  constructor
  · have length := congrArg List.length tags
    rw [List.length_map, List.length_map] at length
    rw [length]
    exact ok.bounded
  · clear tags
    intro line mem
    have lines := ok.lines
    clear ok
    induction row with
    | nil => cases mem
    | cons first rest ih =>
        unfold Memory.modifyFirst at mem
        split at mem
        · next meets =>
            rcases List.mem_cons.mp mem with rfl | mem
            · exact here first List.mem_cons_self meets
            · exact lines line (List.mem_cons_of_mem _ mem)
        · rcases List.mem_cons.mp mem with rfl | mem
          · exact lines line List.mem_cons_self
          · exact ih (fun other inside => here other (List.mem_cons_of_mem _ inside)) mem
              fun other inside => lines other (List.mem_cons_of_mem _ inside)
  · rw [tags]
    exact ok.distinct

/-- `coherence_clean` and `coherence_set_dirty`. -/
theorem WellFormed.mark (ok : c.WellFormed) (B : Nat) {dirty : Bool}
    (allowed : dirty = true → c.cfg.writePolicy = .wtwna → c.isInCache B = false) :
    (c.coherenceMark B dirty).WellFormed := by
  apply ok.setRow
  refine RowAt.modifyFirst (f := fun l => { l with dirty }) (ok.set B) (fun _ => rfl) ?_
  intro line mem isLine
  obtain ⟨valid, tag, index, clean⟩ := (ok.set B).lines line mem
  refine ⟨valid, tag, index, fun through => ?_⟩
  cases dirty with
  | false => rfl
  | true =>
      have missing := allowed rfl through
      have inside : c.isInCache B = true := List.any_eq_true.mpr ⟨line, mem, isLine⟩
      exact absurd (inside.symm.trans missing) Bool.noConfusion

theorem WellFormed.invalidate (ok : c.WellFormed) (B : Nat) : (c.coherenceInvalidate B).WellFormed := by
  unfold coherenceInvalidate
  split
  · have dropped := ok.setRow (B := B) ((ok.set B).sublist (List.eraseP_sublist (p := c.isLine B)))
    exact dropped.of_same rfl rfl
  · exact ok

/-! ## Inserting -/

theorem WellFormed.place (ok : c.WellFormed) (here : c.LineAt (c.getIndex B) line)
    (new : ∀ other ∈ c.set B, other.tag ≠ line.tag) (room : (c.set B).length < c.assoc) :
    (c.place B line).WellFormed := by
  apply ok.setRow
  have front := (ok.set B).cons here new room
  split
  · exact front.perm (List.perm_append_singleton line _).symm
  · exact front

/-- The set has a way free, and none of its tags is new. -/
structure Roomy (c c' : Cache) (B : Nat) : Prop where
  ok : c'.WellFormed
  cfg : c'.cfg = c.cfg
  room : (c'.set B).length < c'.assoc
  sub : ∀ line ∈ c'.set B, line ∈ c.set B

theorem WellFormed.pop (ok : c.WellFormed) (full : (c.set B).length = c.assoc) :
    Roomy c (c.setRow B (c.set B).dropLast) B := by
  have set : (c.setRow B (c.set B).dropLast).set B = (c.set B).dropLast := by
    rw [setRow_set, if_pos rfl]
  refine ⟨ok.setRow ((ok.set B).sublist (List.dropLast_sublist _)), rfl, ?_, fun line mem => ?_⟩
  · have ways : 0 < c.assoc := Nat.pos_of_ne_zero (by simp [assoc])
    have same : (c.setRow B (c.set B).dropLast).assoc = c.assoc := rfl
    rw [set, same, List.length_dropLast]
    omega
  · rw [set] at mem
    exact List.dropLast_subset _ mem

theorem Roomy.bump (roomy : Roomy c c' B) (f : CacheStats → CacheStats) : Roomy c (c'.bump f) B :=
  ⟨roomy.ok.of_same rfl rfl, roomy.cfg, roomy.room, roomy.sub⟩

variable {β : Below}

theorem WellFormed.evict (ok : c.WellFormed) (below : β.State) (full : (c.set B).length = c.assoc) :
    Roomy c (c.evictLru below B).cache B := by
  have popped := ok.pop full
  unfold evictLru
  split
  · next none =>
      rw [List.getLast?_eq_none_iff] at none
      rw [none] at full
      exact absurd full.symm (by simp [assoc])
  · next victim last =>
      cases victim.dirty with
      | true =>
          have counted := popped.bump fun st => { st with writebacks := st.writebacks + 1 }
          simp only [if_true]
          split
          · exact counted
          · split <;> exact counted
      | false =>
          simp only [Bool.false_eq_true, if_false]
          split <;> exact popped

theorem WellFormed.drop (ok : c.WellFormed) (full : (c.set B).length = c.assoc) :
    Roomy c (c.dropLru B) B := by
  have popped := ok.pop full
  unfold dropLru
  simp only
  split
  · split
    · exact popped.bump _
    · exact popped
  · exact popped

theorem Roomy.place (roomy : Roomy c c' B) (missing : ∀ other ∈ c.set B, other.tag ≠ c.getTag B)
    {dirty prefetched : Bool} (clean : c.cfg.writePolicy = .wtwna → dirty = false) :
    (c'.place B ⟨B, c.getTag B, dirty, true, prefetched⟩).WellFormed := by
  have tag : c.getTag B = c'.getTag B := by
    simp only [getTag, indexBit, roomy.cfg]
  apply roomy.ok.place
  · rw [tag]
    exact ⟨rfl, rfl, rfl, fun through => clean (by rwa [roomy.cfg] at through)⟩
  · exact fun other mem => missing other (roomy.sub other mem)
  · exact roomy.room

theorem WellFormed.insert (ok : c.WellFormed) (below : β.State) (write prefetch : Bool)
    (missing : c.isInCache B = false) : (c.insertNewBlock below write B prefetch).cache.WellFormed := by
  have absent := ok.absent missing
  have here (short : ¬(c.set B).length = c.assoc) : Roomy c c B :=
    ⟨ok, rfl, lt_of_le_of_ne (ok.set B).bounded short, fun _ => id⟩
  unfold insertNewBlock
  cases policy : c.cfg.writePolicy with
  | wbwa =>
      have plain : c.cfg.writePolicy = .wtwna → write = false := by
        rw [policy]
        nofun
      simp only
      split
      · next full => exact (ok.evict below full).place absent plain
      · next short => exact (here short).place absent plain
  | wtwna =>
      simp only
      split
      · next full => exact (ok.drop full).place absent fun _ => rfl
      · next short => exact (here short).place absent fun _ => rfl

/-! ## Accessing and filling -/

variable {req : MemReq}

theorem WellFormed.fetch (ok : c.WellFormed) (below : β.State) (write : Bool) (op : Op)
    (missing : c.isInCache (c.getBlockAddr req.addr) = false) :
    (c.fetch below req write op).1.cache.WellFormed := by
  unfold Cache.fetch
  simp only
  split
  · split
    · exact ok
    · exact ok.insert _ _ _ missing
  · split
    · exact ok
    · exact ok.insert _ _ _ missing

theorem not_isInCache (missing : (c.set B).find? (c.isLine B) = none) : c.isInCache B = false := by
  rw [isInCache_eq, missing]
  rfl

theorem settles_touched : c.Settles fun l => { l with prefetched := false } :=
  .of_fields (fun _ => ⟨rfl, rfl, rfl⟩) fun _ _ => id

/-- A hit of the WBWA half sets the dirty bit for a write. -/
theorem settles_hit (written : Bool) (wbwa : written = true → c.cfg.writePolicy = .wbwa) :
    c.Settles fun l => { l with prefetched := false, dirty := l.dirty || written } := by
  apply Settles.of_fields
  · exact fun _ => ⟨rfl, rfl, rfl⟩
  · intro through line clean
    cases written with
    | false => simp [clean]
    | true => cases through.symm.trans (wbwa rfl)

theorem WellFormed.accessWbwa (ok : c.WellFormed) (wbwa : c.cfg.writePolicy = .wbwa) (below : β.State) :
    (c.accessWbwa below req).1.cache.WellFormed := by
  unfold Cache.accessWbwa
  simp only
  split
  · split
    · exact (ok.promote (.of_fields (fun _ => ⟨rfl, rfl, rfl⟩) fun _ _ => id) _).of_same rfl rfl
    · next line _ _ =>
        have hit : (c.bump fun st => { st with
            hits := st.hits + 1
            prefetchHits := if line.prefetched then st.prefetchHits + 1 else st.prefetchHits }).WellFormed :=
          ok.of_same rfl rfl
        exact hit.promote (settles_hit _ fun _ => wbwa) _
  · next none =>
      have counted : (c.bump fun st => { st with misses := st.misses + 1 }).WellFormed :=
        ok.of_same rfl rfl
      exact counted.fetch below _ _ (not_isInCache none)

theorem WellFormed.accessWtwna (ok : c.WellFormed) (below : β.State) :
    (c.accessWtwna below req).1.cache.WellFormed := by
  unfold Cache.accessWtwna
  simp only
  split
  · exact ok.promote (.of_fields (fun _ => ⟨rfl, rfl, rfl⟩) fun _ _ => id) _
  · split
    · next line _ =>
        have hit : (c.bump fun st => { st with
            readHits := st.readHits + 1
            prefetchHits := if line.prefetched then st.prefetchHits + 1 else st.prefetchHits }).WellFormed :=
          ok.of_same rfl rfl
        exact hit.promote settles_touched _
    · next none =>
        have counted : (c.bump fun st => { st with readMisses := st.readMisses + 1 }).WellFormed :=
          ok.of_same rfl rfl
        exact counted.fetch below _ _ (not_isInCache none)

theorem WellFormed.access (ok : c.WellFormed) (below : β.State) (req : MemReq) :
    (c.access below req).1.cache.WellFormed := by
  have counted : (c.bump fun st => { st with
      accesses := st.accesses + 1
      reads := if req.op.isWrite then st.reads else st.reads + 1
      writes := if req.op.isWrite then st.writes + 1 else st.writes }).WellFormed := ok.of_same rfl rfl
  unfold Cache.access
  cases policy : c.cfg.writePolicy with
  | wbwa =>
      simp only [bump, policy]
      exact counted.accessWbwa policy below
  | wtwna =>
      simp only [bump, policy]
      exact counted.accessWtwna below

theorem WellFormed.issuePrefetch (ok : c.WellFormed) (below : β.State) (byteAddr : Nat) :
    (c.issuePrefetch below byteAddr).cache.WellFormed := by
  unfold Cache.issuePrefetch
  split
  · exact ok
  · next missing =>
      have filled := ok.insert below false true (Bool.eq_false_iff.mpr missing)
      exact filled.of_same rfl rfl

theorem WellFormed.accessOver {β : Beneath} (ok : c.WellFormed) (pf : Option Prefetcher)
    (peer : Option Cache) (below : β.State) : (c.accessOver pf peer below req).1.cache.WellFormed := by
  have demand := ok.access (β := β.toBelow) (β.look below c) req
  unfold Cache.accessOver
  simp only
  split
  · exact demand
  · split
    · split
      · exact demand
      · exact demand.issuePrefetch _ _
    · exact demand

theorem WellFormed.issueOver {β : Beneath} (ok : c.WellFormed) (pf : Option Prefetcher)
    (peer : Option Cache) (below : β.State) : (c.issueOver pf peer below req).1.cache.WellFormed := by
  unfold Cache.issueOver issueBy
  simp only
  split
  · exact ok.of_same rfl rfl
  · split
    · exact ok
    · exact (ok.accessOver pf peer below).of_same rfl rfl

/-- `cache_fill` of a block that is not there, or that its test finds. -/
theorem WellFormed.fill (ok : c.WellFormed) (below : β.State) {write : Bool}
    (absent : c.blockIn (shiftLeft64 B c.cfg.b) = false → c.isInCache B = false)
    (allowed : c.blockIn (shiftLeft64 B c.cfg.b) = true → write = true → c.cfg.writePolicy = .wtwna →
      c.isInCache B = false) : (c.fill below B write).cache.WellFormed := by
  unfold Cache.fill
  split
  · next found =>
      cases write with
      | false => exact ok
      | true => exact ok.mark B fun _ => allowed found rfl
  · next missing => exact ok.insert below write false (absent (Bool.eq_false_iff.mpr missing))

/-! ## Counters -/

/-- The hits and misses add up to what was asked. -/
structure Counted (c : Cache) : Prop where
  wbwa : c.cfg.writePolicy = .wbwa →
    c.stats.accesses = c.stats.hits + c.stats.misses + c.stats.upgradeMisses
  wtwna : c.cfg.writePolicy = .wtwna → c.stats.reads = c.stats.readHits + c.stats.readMisses

/-- The counters that only a demand access moves. -/
def demands (st : CacheStats) : List Nat :=
  [st.accesses, st.reads, st.hits, st.misses, st.upgradeMisses, st.readHits, st.readMisses]

/-- Same settings and same demands. -/
structure SameDemands (c c' : Cache) : Prop where
  cfg : c'.cfg = c.cfg
  demands : demands c'.stats = demands c.stats

theorem SameDemands.trans {c'' : Cache} (first : SameDemands c c') (second : SameDemands c' c'') :
    SameDemands c c'' :=
  ⟨second.cfg.trans first.cfg, second.demands.trans first.demands⟩

theorem Counted.same (counted : c.Counted) (same : SameDemands c c') : c'.Counted := by
  have demands := same.demands
  simp only [Cache.demands, List.cons.injEq, and_true] at demands
  obtain ⟨accesses, reads, hits, misses, upgrades, readHits, readMisses⟩ := demands
  constructor
  · rw [same.cfg, accesses, hits, misses, upgrades]
    exact counted.wbwa
  · rw [same.cfg, reads, readHits, readMisses]
    exact counted.wtwna

theorem sameDemands_promote (c : Cache) (B : Nat) (f : TagMeta → TagMeta) :
    SameDemands c (c.promote B f) :=
  ⟨promote_cfg c B f, congrArg _ (promote_stats c B f)⟩

theorem sameDemands_place (c : Cache) (B : Nat) (line : TagMeta) : SameDemands c (c.place B line) :=
  ⟨rfl, rfl⟩

theorem sameDemands_invalidate (c : Cache) (B : Nat) : SameDemands c (c.coherenceInvalidate B) := by
  unfold coherenceInvalidate
  split <;> exact ⟨rfl, rfl⟩

theorem sameDemands_evict (c : Cache) (below : β.State) (B : Nat) :
    SameDemands c (c.evictLru below B).cache := by
  unfold evictLru
  split
  · exact ⟨rfl, rfl⟩
  · next victim _ =>
      cases victim.dirty with
      | true =>
          simp only [if_true]
          split
          · exact ⟨rfl, rfl⟩
          · split <;> exact ⟨rfl, rfl⟩
      | false =>
          simp only [Bool.false_eq_true, if_false]
          split <;> exact ⟨rfl, rfl⟩

theorem sameDemands_drop (c : Cache) (B : Nat) : SameDemands c (c.dropLru B) := by
  unfold dropLru
  simp only
  split
  · split <;> exact ⟨rfl, rfl⟩
  · exact ⟨rfl, rfl⟩

theorem sameDemands_insert (c : Cache) (below : β.State) (write : Bool) (B : Nat) (prefetch : Bool) :
    SameDemands c (c.insertNewBlock below write B prefetch).cache := by
  unfold insertNewBlock
  simp only
  split
  · split
    · exact (sameDemands_evict c below B).trans (sameDemands_place _ _ _)
    · exact sameDemands_place _ _ _
  · split
    · exact (sameDemands_drop c B).trans (sameDemands_place _ _ _)
    · exact sameDemands_place _ _ _

theorem sameDemands_fetch (c : Cache) (below : β.State) (req : MemReq) (write : Bool) (op : Op) :
    SameDemands c (c.fetch below req write op).1.cache := by
  unfold Cache.fetch
  simp only
  split
  · split
    · exact ⟨rfl, rfl⟩
    · exact sameDemands_insert _ _ _ _ _
  · split
    · exact ⟨rfl, rfl⟩
    · exact sameDemands_insert _ _ _ _ _

theorem sameDemands_fill (c : Cache) (below : β.State) (B : Nat) (write : Bool) :
    SameDemands c (c.fill below B write).cache := by
  unfold Cache.fill
  split
  · cases write <;> exact ⟨rfl, rfl⟩
  · exact sameDemands_insert _ _ _ _ _

theorem sameDemands_issuePrefetch (c : Cache) (below : β.State) (byteAddr : Nat) :
    SameDemands c (c.issuePrefetch below byteAddr).cache := by
  unfold Cache.issuePrefetch
  split
  · exact ⟨rfl, rfl⟩
  · exact (sameDemands_insert c below false _ true).trans ⟨rfl, rfl⟩

/-- One more access was counted as a hit, a miss or an upgrade. -/
structure OneMore (c c' : Cache) : Prop where
  cfg : c'.cfg = c.cfg
  accesses : c'.stats.accesses = c.stats.accesses
  sum : c'.stats.hits + c'.stats.misses + c'.stats.upgradeMisses =
    c.stats.hits + c.stats.misses + c.stats.upgradeMisses + 1

/-- One more read was counted as a hit or a miss. -/
structure OneRead (c c' : Cache) : Prop where
  cfg : c'.cfg = c.cfg
  reads : c'.stats.reads = c.stats.reads
  sum : c'.stats.readHits + c'.stats.readMisses = c.stats.readHits + c.stats.readMisses + 1

theorem OneMore.same (one : OneMore c c') {c'' : Cache} (same : SameDemands c' c'') : OneMore c c'' := by
  have demands := same.demands
  simp only [Cache.demands, List.cons.injEq, and_true] at demands
  obtain ⟨accesses, -, hits, misses, upgrades, -, -⟩ := demands
  refine ⟨same.cfg.trans one.cfg, accesses.trans one.accesses, ?_⟩
  rw [hits, misses, upgrades]
  exact one.sum

theorem OneRead.same (one : OneRead c c') {c'' : Cache} (same : SameDemands c' c'') : OneRead c c'' := by
  have demands := same.demands
  simp only [Cache.demands, List.cons.injEq, and_true] at demands
  obtain ⟨-, reads, -, -, -, hits, misses⟩ := demands
  refine ⟨same.cfg.trans one.cfg, reads.trans one.reads, ?_⟩
  rw [hits, misses]
  exact one.sum

theorem oneMore_accessWbwa (c : Cache) (below : β.State) (req : MemReq) :
    OneMore c (c.accessWbwa below req).1.cache := by
  unfold Cache.accessWbwa
  simp only
  split
  · next line _ =>
      split
      · have upgraded : OneMore (c.promote (c.getBlockAddr req.addr) id)
            ((c.promote (c.getBlockAddr req.addr) id).bump fun st =>
              { st with upgradeMisses := st.upgradeMisses + 1 }) := ⟨rfl, rfl, rfl⟩
        obtain ⟨cfg, accesses, sum⟩ := upgraded
        rw [promote_cfg, promote_stats] at *
        exact ⟨cfg, accesses, sum⟩
      · have hit : OneMore c (c.bump fun st => { st with
            hits := st.hits + 1
            prefetchHits := if line.prefetched then st.prefetchHits + 1 else st.prefetchHits }) :=
          ⟨rfl, rfl, by simp only [bump]; omega⟩
        exact hit.same (sameDemands_promote _ _ _)
  · have missed : OneMore c (c.bump fun st => { st with misses := st.misses + 1 }) :=
      ⟨rfl, rfl, by simp only [bump]; omega⟩
    exact missed.same (sameDemands_fetch _ _ _ _ _)

theorem oneRead_accessWtwna (c : Cache) (below : β.State) (read : req.op.isWrite = false) :
    OneRead c (c.accessWtwna below req).1.cache := by
  unfold Cache.accessWtwna
  simp only [read, Bool.false_eq_true, if_false]
  split
  · next line _ =>
      have hit : OneRead c (c.bump fun st => { st with
          readHits := st.readHits + 1
          prefetchHits := if line.prefetched then st.prefetchHits + 1 else st.prefetchHits }) :=
        ⟨rfl, rfl, by simp only [bump]; omega⟩
      exact hit.same (sameDemands_promote _ _ _)
  · have missed : OneRead c (c.bump fun st => { st with readMisses := st.readMisses + 1 }) :=
      ⟨rfl, rfl, rfl⟩
    exact missed.same (sameDemands_fetch _ _ _ _ _)

/-- Every access is a hit, a miss or an upgrade. -/
theorem Counted.access (counted : c.Counted) (below : β.State) (req : MemReq) :
    (c.access below req).1.cache.Counted := by
  unfold Cache.access
  cases policy : c.cfg.writePolicy with
  | wbwa =>
      have before := counted.wbwa policy
      simp only [bump, policy]
      generalize started : ({ c with stats := _ } : Cache) = c₁
      have one := oneMore_accessWbwa c₁ below req
      subst started
      refine ⟨fun _ => ?_, fun through => ?_⟩
      · rw [one.accesses, one.sum]
        exact congrArg (· + 1) before
      · rw [one.cfg] at through
        cases policy.symm.trans through
  | wtwna =>
      have before := counted.wtwna policy
      simp only [bump, policy]
      generalize started : ({ c with stats := _ } : Cache) = c₁
      cases write : req.op.isWrite with
      | true =>
          have same : SameDemands c₁ (c₁.accessWtwna below req).1.cache := by
            unfold Cache.accessWtwna
            simp only [write, if_true]
            exact sameDemands_promote _ _ _
          apply Counted.same _ same
          subst started
          refine ⟨fun back => ?_, fun _ => ?_⟩
          · cases policy.symm.trans back
          · simpa [write] using before
      | false =>
          have one := oneRead_accessWtwna c₁ below write
          subst started
          refine ⟨fun back => ?_, fun _ => ?_⟩
          · rw [one.cfg] at back
            cases policy.symm.trans back
          · rw [one.reads, one.sum]
            simpa [write] using before

theorem Counted.accessOver {β : Beneath} (counted : c.Counted) (pf : Option Prefetcher)
    (peer : Option Cache) (below : β.State) : (c.accessOver pf peer below req).1.cache.Counted := by
  have demand := counted.access (β := β.toBelow) (β.look below c) req
  unfold Cache.accessOver
  simp only
  split
  · exact demand
  · split
    · split
      · exact demand
      · exact demand.same (sameDemands_issuePrefetch _ _ _)
    · exact demand

theorem Counted.issueOver {β : Beneath} (counted : c.Counted) (pf : Option Prefetcher)
    (peer : Option Cache) (below : β.State) : (c.issueOver pf peer below req).1.cache.Counted := by
  unfold Cache.issueOver issueBy
  simp only
  split
  · exact counted.same ⟨rfl, rfl⟩
  · split
    · exact counted
    · exact (counted.accessOver pf peer below).same ⟨rfl, rfl⟩

end Cache

end Memory
