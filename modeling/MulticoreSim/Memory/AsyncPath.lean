import MulticoreSim.Memory.WriteCompletion

/-! # The asynchronous path

Requests one at a time through `issue`, `tick` and `complete`, against the same
requests through `access`. What `access` does depends on neither the table nor
the clock.
-/

namespace Memory

namespace Cache

variable {β : Below} {c : Cache} {t : Cache} {B : Nat}

/-! ## The table and the clock are not looked at -/

/-- The cache with another's table, clock and next id. -/
def retable (c t : Cache) : Cache := { c with mshr := t.mshr, now := t.now, nextId := t.nextId }

def Result.retable (r : Result β) (t : Cache) : Result β := { r with cache := r.cache.retable t }

@[simp] theorem retable_set (c t : Cache) (B : Nat) : (c.retable t).set B = c.set B := rfl

@[simp] theorem retable_isLine (c t : Cache) (B : Nat) : (c.retable t).isLine B = c.isLine B := rfl

@[simp] theorem retable_setRow (c t : Cache) (B : Nat) (row : List TagMeta) :
    (c.retable t).setRow B row = (c.setRow B row).retable t := rfl

@[simp] theorem retable_bump (c t : Cache) (f : CacheStats → CacheStats) :
    (c.retable t).bump f = (c.bump f).retable t := rfl

@[simp] theorem retable_place (c t : Cache) (B : Nat) (line : TagMeta) :
    (c.retable t).place B line = (c.place B line).retable t := rfl

theorem promote_retable (c t : Cache) (B : Nat) (f : TagMeta → TagMeta) :
    (c.retable t).promote B f = (c.promote B f).retable t := by
  simp only [promote, retable_set, retable_isLine, retable_setRow]
  split <;> rfl

@[simp] theorem retable_cfg (c t : Cache) : (c.retable t).cfg = c.cfg := rfl

@[simp] theorem retable_assoc (c t : Cache) : (c.retable t).assoc = c.assoc := rfl

@[simp] theorem retable_getBlockAddr (c t : Cache) (a : Nat) :
    (c.retable t).getBlockAddr a = c.getBlockAddr a := rfl

@[simp] theorem retable_blockIn (c t : Cache) (a : Nat) : (c.retable t).blockIn a = c.blockIn a := rfl

theorem evictLru_retable (c t : Cache) (below : β.State) (B : Nat) :
    (c.retable t).evictLru below B = (c.evictLru below B).retable t := by
  simp only [evictLru, retable_set, retable_setRow, retable_bump, retable_cfg]
  split
  · rfl
  · next victim _ =>
      cases victim.dirty with
      | true =>
          simp only [if_true]
          split
          · rfl
          · split <;> rfl
      | false =>
          simp only [Bool.false_eq_true, if_false]
          split <;> rfl

theorem dropLru_retable (c t : Cache) (B : Nat) :
    (c.retable t).dropLru B = (c.dropLru B).retable t := by
  simp only [dropLru, retable_set, retable_setRow, retable_bump]
  split
  · split <;> rfl
  · rfl

theorem insert_retable (c t : Cache) (below : β.State) (write : Bool) (B : Nat) (prefetch : Bool) :
    (c.retable t).insertNewBlock below write B prefetch =
      (c.insertNewBlock below write B prefetch).retable t := by
  unfold insertNewBlock
  simp only [retable_cfg, retable_set, retable_assoc, evictLru_retable, dropLru_retable]
  cases c.cfg.writePolicy with
  | wbwa =>
      by_cases full : (c.set B).length = c.assoc
      · simp only [if_pos full]
        rfl
      · simp only [if_neg full]
        rfl
  | wtwna =>
      by_cases full : (c.set B).length = c.assoc
      · simp only [if_pos full]
        rfl
      · simp only [if_neg full]
        rfl

theorem fetch_retable (c t : Cache) (below : β.State) (req : MemReq) (write : Bool) (op : Op) :
    (c.retable t).fetch below req write op =
      ((c.fetch below req write op).1.retable t, (c.fetch below req write op).2) := by
  unfold fetch
  simp only [retable_cfg, retable_getBlockAddr, insert_retable]
  cases β.access below
      { addr := shiftLeft64 (c.getBlockAddr req.addr) c.cfg.b, pc := req.pc, originatingOp := op
        tid := req.tid } with
  | none =>
      simp only
      split <;> rfl
  | some answer =>
      obtain ⟨below', sub, suspended, calls⟩ := answer
      cases suspended <;> rfl

theorem accessWbwa_retable (c t : Cache) (below : β.State) (req : MemReq) :
    (c.retable t).accessWbwa below req =
      ((c.accessWbwa below req).1.retable t, (c.accessWbwa below req).2) := by
  unfold accessWbwa
  simp only [retable_cfg, retable_getBlockAddr, retable_set, retable_isLine, retable_bump,
    promote_retable, fetch_retable]
  split
  · split <;> rfl
  · rfl

theorem accessWtwna_retable (c t : Cache) (below : β.State) (req : MemReq) :
    (c.retable t).accessWtwna below req =
      ((c.accessWtwna below req).1.retable t, (c.accessWtwna below req).2) := by
  unfold accessWtwna
  simp only [retable_cfg, retable_getBlockAddr, retable_set, retable_isLine, retable_bump,
    promote_retable, fetch_retable]
  split
  · rfl
  · split <;> rfl

theorem access_retable (c t : Cache) (below : β.State) (req : MemReq) :
    (c.retable t).access below req =
      ((c.access below req).1.retable t, (c.access below req).2) := by
  unfold access
  simp only [retable_bump, retable_cfg, accessWbwa_retable, accessWtwna_retable]
  split <;> rfl

theorem issuePrefetch_retable (c t : Cache) (below : β.State) (byteAddr : Nat) :
    (c.retable t).issuePrefetch below byteAddr = (c.issuePrefetch below byteAddr).retable t := by
  unfold issuePrefetch
  simp only [retable_blockIn, retable_getBlockAddr, insert_retable]
  split <;> rfl

end Cache

/-- A prefetcher looks at the lines only. -/
theorem Prefetcher.onMiss_retable (pf : Prefetcher) (c t : Cache) (peer : Option Cache) (req : MemReq) :
    pf.onMiss (c.retable t) peer req = pf.onMiss c peer req := by
  cases pf <;> rfl

theorem Cache.accessOver_retable {β : Beneath} (c t : Cache) (pf : Option Prefetcher)
    (peer : Option Cache) (below : β.State) (req : MemReq) :
    (c.retable t).accessOver pf peer below req =
      ((c.accessOver pf peer below req).1.retable t, (c.accessOver pf peer below req).2) := by
  have look (st : β.State) (c : Cache) : β.look st (c.retable t) = β.look st c := β.lines st ⟨rfl, rfl⟩
  unfold accessOver
  simp only [look, access_retable]
  cases pf with
  | none => rfl
  | some pf =>
      simp only [Result.retable, retable_blockIn, Prefetcher.onMiss_retable, look, issuePrefetch_retable]
      split
      · split <;> rfl
      · rfl

namespace MSHR

/-! ## One request in the table -/

variable {m : MSHR} {e : MSHREntry} {id b : Nat} {op : Op} {pc due : Nat} {result : AccessResult}

/-- A table that has slots, and none in use. -/
structure Idle (m : MSHR) : Prop where
  some : m.table ≠ []
  free : ∀ e ∈ m.table, e.valid = false

/-- A table in which at most the first slot is in use. -/
def Single (m : MSHR) (e : MSHREntry) : Prop :=
  ∃ rest, m.table = e :: rest ∧ ∀ x ∈ rest, x.valid = false

theorem Idle.make {numEntries : Nat} (entries : 1 ≤ numEntries) : (MSHR.make numEntries).Idle where
  some := by simp [MSHR.make, List.replicate_eq_nil_iff, Nat.one_le_iff_ne_zero.mp entries]
  free e mem := by
    cases List.eq_of_mem_replicate mem
    rfl

theorem Idle.room (idle : m.Idle) : m.full = false := by
  obtain ⟨e, mem⟩ := List.exists_mem_of_ne_nil _ idle.some
  rw [MSHR.full, List.all_eq_false]
  exact ⟨e, mem, by simp [idle.free e mem]⟩

theorem Idle.untargeted (idle : m.Idle) (e : MSHREntry) (mem : e ∈ m.table) : e.targets b = false := by
  simp [MSHREntry.targets, idle.free e mem]

theorem Idle.allocate {m' : MSHR} (idle : m.Idle)
    (taken : m.allocate id b op pc due result = Option.some m') :
    m'.Single { id, blockAddr := b, op, pc, valid := true, dueCycle := due, result } := by
  have unused : m.table.any (·.targets b) = false := by
    rw [List.any_eq_false]
    intro e mem
    simp [idle.untargeted e mem]
  unfold MSHR.allocate at taken
  rw [unused, idle.room] at taken
  cases taken
  obtain ⟨some, free⟩ := idle
  cases table : m.table with
  | nil => exact absurd table some
  | cons x rest =>
      rw [table] at free
      refine ⟨rest, ?_, fun y mem => free y (List.mem_cons_of_mem _ mem)⟩
      simp [modifyFirst, free x List.mem_cons_self]

theorem Single.find (single : m.Single e) (holds : e.holds id = true) : m.find id = Option.some e := by
  obtain ⟨rest, table, -⟩ := single
  simp [MSHR.find, table, holds]

theorem Single.tick (single : m.Single e) (now : Nat) : (m.tick now).Single (e.ticked now) := by
  obtain ⟨rest, table, free⟩ := single
  refine ⟨rest.map (MSHREntry.ticked now), ?_, ?_⟩
  · change m.table.map (MSHREntry.ticked now) = _
    rw [table]
    rfl
  · intro x mem
    obtain ⟨y, inside, rfl⟩ := List.mem_map.mp mem
    rw [(y.ticked_fields now).1]
    exact free y inside

/-- The only holder leaves. -/
theorem Single.release (single : m.Single e) (holders : e.holders = [id]) : (m.release id).Idle := by
  obtain ⟨rest, table, free⟩ := single
  have valid : e.valid = true := by
    cases valid : e.valid with
    | true => rfl
    | false => simp [MSHREntry.holders, valid] at holders
  obtain ⟨primary, alone⟩ : e.id = id ∧ e.mergedIds = [] := by
    simpa [MSHREntry.holders, valid] using holders
  have holds : e.holds id = true := by simp [MSHREntry.holds, valid, primary]
  have released : (m.release id).table = { e with valid := false, ready := false } :: rest := by
    simp [MSHR.release, table, modifyFirst, holds, releaseEntry, primary, alone]
  constructor
  · rw [released]
    exact List.cons_ne_nil _ _
  · rw [released]
    intro x mem
    rcases List.mem_cons.mp mem with rfl | mem
    · rfl
    · exact free x mem

end MSHR

namespace Served

variable {β : Beneath} {s a : Served β.toBelow} {id : Nat}

/-! ## Driving a request -/

/-- Tick until the request is ready, counting. `none` where it is not within `fuel` ticks. -/
def spin (s : Served β.toBelow) (id : Nat) : (fuel : Nat) → Option (Served β.toBelow × Nat)
  | 0 => if (s.cache.peek id).any (·.ready) then some (s, 0) else none
  | fuel + 1 =>
      if (s.cache.peek id).any (·.ready) then some (s, 0)
      else (spin (s.apply .tick) id fuel).map fun (s, ticks) => (s, ticks + 1)

/-- `issue`, `tick` until ready, `complete`: what was answered, and after how many ticks. -/
def drive (s : Served β.toBelow) (peer : Option Cache) (req : MemReq) (fuel : Nat) :
    Option (Served β.toBelow × AccessResult × Nat) :=
  match s.issue peer req with
  | (_, none) => none
  | (s, some id) =>
      match s.spin id fuel with
      | none => none
      | some (s, ticks) =>
          (s.cache.peek id).map fun e => (s.apply (.complete id), e.result, ticks)

/-- The requests one after the other. -/
def driveAll (s : Served β.toBelow) (fuel : Nat) :
    List (Option Cache × MemReq) → Option (Served β.toBelow × List (AccessResult × Nat))
  | [] => some (s, [])
  | (peer, req) :: rest =>
      match s.drive peer req fuel with
      | none => none
      | some (s, answer) => (driveAll s fuel rest).map fun (s, answers) => (s, answer :: answers)

/-- The same requests through `access`. -/
def accessAll (s : Served β.toBelow) :
    List (Option Cache × MemReq) → Served β.toBelow × List AccessResult
  | [] => (s, [])
  | (peer, req) :: rest =>
      let (s, result) := s.access peer req
      let (s, results) := s.accessAll rest
      (s, result :: results)

/-- Two caches in use that differ in their tables and clocks only. -/
structure Mirrors (a s : Served β.toBelow) : Prop where
  cfg : a.cache.cfg = s.cache.cfg
  stats : a.cache.stats = s.cache.stats
  rows : a.cache.rows = s.cache.rows
  prefetcher : a.prefetcher = s.prefetcher
  below : a.below = s.below

theorem Mirrors.eq (mirrors : Mirrors a s) : a = { s with cache := s.cache.retable a.cache } := by
  obtain ⟨⟨cfg, stats, rows, mshr, now, nextId⟩, prefetcher, below⟩ := a
  obtain ⟨rfl, rfl, rfl, rfl, rfl⟩ := mirrors
  rfl

theorem Mirrors.trans {t : Served β.toBelow} (first : Mirrors a s) (second : Mirrors s t) : Mirrors a t :=
  ⟨first.cfg.trans second.cfg, first.stats.trans second.stats, first.rows.trans second.rows,
    first.prefetcher.trans second.prefetcher, first.below.trans second.below⟩

/-- They answer alike, and go on alike. -/
theorem Mirrors.access (mirrors : Mirrors a s) (peer : Option Cache) (req : MemReq) :
    (a.access peer req).2 = (s.access peer req).2 ∧ Mirrors (a.access peer req).1 (s.access peer req).1 := by
  rw [mirrors.eq]
  simp only [Served.access, Cache.accessOver_retable]
  exact ⟨trivial, rfl, rfl, rfl, rfl, rfl⟩

/-! ## Waiting -/

/-- The state a waiting request is found ready in. -/
structure Woken (s : Served β.toBelow) (e : MSHREntry) (ticks : Nat) (t : Served β.toBelow) : Prop where
  mirrors : Mirrors t s
  single : t.cache.mshr.Single { e with ready := true }
  now : t.cache.now = s.cache.now + ticks

theorem spin_ready {e : MSHREntry} (single : s.cache.mshr.Single e) (holds : e.holds id = true)
    (ready : e.ready = true) (fuel : Nat) : s.spin id fuel = some (s, 0) := by
  have found : (s.cache.peek id).any (·.ready) = true := by
    rw [Cache.peek, single.find holds]
    exact ready
  cases fuel <;> simp only [spin, found, if_true]

/-- A request is ready one tick after it was issued, or when it is due. -/
theorem spin_waits {e : MSHREntry} (id : Nat) (single : s.cache.mshr.Single e)
    (holders : e.holders = [id]) (unready : e.ready = false) (fuel : Nat) (enough : max 1 (e.dueCycle - s.cache.now) ≤ fuel) :
    ∃ t, s.spin id fuel = some (t, max 1 (e.dueCycle - s.cache.now)) ∧
      Woken s e (max 1 (e.dueCycle - s.cache.now)) t := by
  have holds : e.holds id = true := (e.holds_iff id).mpr (by simp [holders])
  have valid : e.valid = true := by
    unfold MSHREntry.holds at holds
    exact (Bool.and_eq_true _ _ ▸ holds).1
  induction fuel generalizing s with
  | zero => omega
  | succ fuel ih =>
      have waiting : (s.cache.peek id).any (·.ready) = false := by
        rw [Cache.peek, single.find holds]
        exact unready
      have ticked : (s.apply .tick).cache.mshr.Single (e.ticked (s.cache.now + 1)) := single.tick _
      rw [spin, waiting]
      simp only [Bool.false_eq_true, if_false]
      by_cases due : e.dueCycle ≤ s.cache.now + 1
      · have woken : e.ticked (s.cache.now + 1) = { e with ready := true } := by
          rw [MSHREntry.ticked, if_pos ⟨valid, unready, due⟩]
        rw [woken] at ticked
        have one : max 1 (e.dueCycle - s.cache.now) = 1 := by omega
        rw [spin_ready ticked holds rfl, one]
        exact ⟨_, rfl, ⟨rfl, rfl, rfl, rfl, rfl⟩, ticked, rfl⟩
      · have same : e.ticked (s.cache.now + 1) = e := by
          rw [MSHREntry.ticked, if_neg (fun woken => due woken.2.2)]
        rw [same] at ticked
        have clock : (s.apply .tick).cache.now = s.cache.now + 1 := rfl
        obtain ⟨t, spun, mirrors, last, now⟩ := ih ticked (by rw [clock]; omega)
        have count : max 1 (e.dueCycle - (s.apply .tick).cache.now) + 1 =
            max 1 (e.dueCycle - s.cache.now) := by
          rw [clock]
          omega
        rw [spun, Option.map_some, count]
        refine ⟨t, rfl, mirrors.trans ⟨rfl, rfl, rfl, rfl, rfl⟩, last, ?_⟩
        rw [now, clock]
        omega

/-- It is not ready before. -/
theorem spin_early {e : MSHREntry} (id : Nat) (single : s.cache.mshr.Single e)
    (holds : e.holds id = true) (unready : e.ready = false) (fuel : Nat)
    (early : s.cache.now + fuel < e.dueCycle) : s.spin id fuel = none := by
  induction fuel generalizing s with
  | zero =>
      rw [spin, Cache.peek, single.find holds]
      simp [unready]
  | succ fuel ih =>
      have same : e.ticked (s.cache.now + 1) = e := by
        rw [MSHREntry.ticked, if_neg (fun woken => by omega)]
      have ticked : (s.apply .tick).cache.mshr.Single (e.ticked (s.cache.now + 1)) := single.tick _
      rw [same] at ticked
      have clock : (s.apply .tick).cache.now = s.cache.now + 1 := rfl
      rw [spin, Cache.peek, single.find holds, ih ticked (by rw [clock]; omega)]
      simp [unready]

/-! ## Driving against accessing -/

/-- On an idle table a request comes back with what `access` answers. -/
theorem drive_access (idle : s.cache.mshr.Idle) {peer : Option Cache} {req : MemReq} (fuel : Nat)
    (answered : (s.access peer req).2.latency ≠ coherenceSuspendedLatency)
    (early : s.cache.now + (s.access peer req).2.latency < 2 ^ 64)
    (enough : max 1 (s.access peer req).2.latency ≤ fuel) :
    ∃ t, s.drive peer req fuel =
        some (t, (s.access peer req).2, max 1 (s.access peer req).2.latency) ∧
      Mirrors t (s.access peer req).1 ∧ t.cache.mshr.Idle ∧
      t.cache.now = s.cache.now + max 1 (s.access peer req).2.latency := by
  have issued := Cache.issueOver_issued s.cache s.prefetcher peer s.below req
  have same := Cache.accessOver_same s.cache s.prefetcher peer s.below req
  unfold drive issue
  simp only [access] at answered early enough ⊢
  generalize s.cache.issueOver s.prefetcher peer s.below req = y at issued
  cases issued with
  | rejected full => cases full.symm.trans idle.room
  | merged mem read targets taken => cases (idle.untargeted _ mem).symm.trans targets
  | @accessed r pf' result mshr room done taken =>
      rw [done] at same answered early enough ⊢
      simp only at answered early enough ⊢
      have due : Cache.due s.cache.now result = s.cache.now + result.latency := by
        rw [Cache.due, if_neg answered]
        exact Nat.mod_eq_of_lt early
      have single := idle.allocate taken
      rw [due] at single
      let started : Served β.toBelow :=
        { cache := r.cache.holding mshr, prefetcher := pf', below := r.below }
      have clock : started.cache.now = s.cache.now := same.now
      have left : s.cache.now + result.latency - started.cache.now = result.latency := by
        rw [clock]
        omega
      have waits := spin_waits (s := started) s.cache.nextId single rfl rfl fuel
      rw [left] at waits
      obtain ⟨t, spun, mirrors, last, now⟩ := waits enough
      have found : t.cache.mshr.find s.cache.nextId = some _ := last.find (by simp [MSHREntry.holds])
      simp only [started] at spun
      rw [spun]
      simp only [Cache.peek, found, Option.map_some]
      refine ⟨_, rfl, ?_, last.release rfl, ?_⟩
      · exact ⟨mirrors.cfg, mirrors.stats, mirrors.rows, mirrors.prefetcher, mirrors.below⟩
      · exact now.trans (congrArg (· + _) clock)

theorem driveAll_accessAll (mirrors : Mirrors a s) (idle : a.cache.mshr.Idle)
    (word : s.cache.cfg.hitLatency < 2 ^ 32) (reqs : List (Option Cache × MemReq))
    (answered : ∀ result ∈ (s.accessAll reqs).2, result.latency ≠ coherenceSuspendedLatency)
    (early : a.cache.now + ((s.accessAll reqs).2.map fun r => max 1 r.latency).sum < 2 ^ 64) :
    ∃ t, a.driveAll (2 ^ 32) reqs =
        some (t, (s.accessAll reqs).2.map fun r => (r, max 1 r.latency)) ∧
      Mirrors t (s.accessAll reqs).1 := by
  induction reqs generalizing a s with
  | nil => exact ⟨a, rfl, mirrors⟩
  | cons d rest ih =>
      obtain ⟨peer, req⟩ := d
      obtain ⟨same, next⟩ := mirrors.access peer req
      simp only [accessAll, List.map_cons, List.sum_cons] at answered early ⊢
      have cfg : (s.access peer req).1.cache.cfg = s.cache.cfg :=
        (Cache.accessOver_same s.cache s.prefetcher peer s.below req).cfg
      have short : (s.access peer req).2.latency < 2 ^ 32 := by
        rw [access, Cache.accessOver_result]
        exact Cache.access_word word _ _
      have first := answered _ List.mem_cons_self
      obtain ⟨t, drove, mirrored, idle', clock⟩ := drive_access idle (2 ^ 32)
        (by rw [same]; exact first) (by rw [same]; omega) (by rw [same]; omega)
      rw [same] at drove clock
      obtain ⟨t', drove', mirrored'⟩ := ih (mirrored.trans next) idle' (cfg ▸ word)
        (fun result mem => answered result (List.mem_cons_of_mem _ mem)) (by rw [clock]; omega)
      refine ⟨t', ?_, mirrored'⟩
      rw [driveAll, drove]
      simp only
      rw [drove', Option.map_some]

/-- One at a time through `issue`, `tick` until ready and `complete`, the requests of any
    sequence are answered as by `access`, each after the ticks of its latency, and leave the
    same, while no answer has the latency of the sentinel and the clock does not wrap. -/
theorem async_path {cfg : Config} (entries : 1 ≤ cfg.mshrEntries) (word : cfg.hitLatency < 2 ^ 32)
    (prefetcher : Option Prefetcher) (below : β.State) (reqs : List (Option Cache × MemReq))
    (answered : ∀ result ∈ (accessAll ⟨Cache.build cfg, prefetcher, below⟩ reqs).2,
      result.latency ≠ coherenceSuspendedLatency)
    (early : ((accessAll ⟨Cache.build cfg, prefetcher, below⟩ reqs).2.map
      fun r => max 1 r.latency).sum < 2 ^ 64) :
    ∃ t, driveAll ⟨Cache.build cfg, prefetcher, below⟩ (2 ^ 32) reqs =
        some (t, (accessAll ⟨Cache.build cfg, prefetcher, below⟩ reqs).2.map
          fun r => (r, max 1 r.latency)) ∧
      Mirrors t (accessAll ⟨Cache.build cfg, prefetcher, below⟩ reqs).1 := by
  apply driveAll_accessAll ⟨rfl, rfl, rfl, rfl, rfl⟩ (.make entries) word reqs answered
  change 0 + _ < _
  rw [Nat.zero_add]
  exact early

/-- An L2 with a prefetcher that looks into the L1. -/
def twoLevels : (Beneath.memory.level true).State :=
  (none, ⟨Cache.build { c := 12, writePolicy := .wtwna }, some .plusOne, ({} : MainMemory)⟩)

theorem async_path_two_levels :
    ∃ t, driveAll (β := Beneath.memory.level true) ⟨Cache.build {}, none, twoLevels⟩ (2 ^ 32)
        [(none, { addr := 64 }), (none, { addr := 128, op := .write })] =
        some (t, (accessAll (β := Beneath.memory.level true) ⟨Cache.build {}, none, twoLevels⟩
          [(none, { addr := 64 }), (none, { addr := 128, op := .write })]).2.map
          fun r => (r, max 1 r.latency)) ∧
      Mirrors t (accessAll (β := Beneath.memory.level true) ⟨Cache.build {}, none, twoLevels⟩
        [(none, { addr := 64 }), (none, { addr := 128, op := .write })]).1 := by
  apply async_path
  · decide
  · decide
  · decide +kernel
  · decide +kernel

/-- A cache with a large hit latency, and a request it has issued. -/
def slowCache : Served Beneath.memory.toBelow := fresh { hitLatency := 2 ^ 32 - 101, mshrEntries := 1 } none

def slowRequest : Served Beneath.memory.toBelow := slowCache.apply (.issue none { addr := 64 })

/-- The latency of its miss is the sentinel's, and after as many ticks it is not ready. -/
theorem slow_not_ready :
    (slowCache.access none { addr := 64 }).2.latency = 2 ^ 32 - 1 ∧
      slowRequest.spin 1 (2 ^ 32 - 1) = none := by
  refine ⟨by decide +kernel, ?_⟩
  have single : slowRequest.cache.mshr.Single
      { id := 1, blockAddr := 1, valid := true, dueCycle := Cache.never
        result := { latency := 2 ^ 32 - 1 } } := ⟨[], by decide +kernel, by simp⟩
  apply spin_early 1 single rfl rfl
  have clock : slowRequest.cache.now = 0 := by decide +kernel
  rw [clock]
  decide

end Served

end Memory
