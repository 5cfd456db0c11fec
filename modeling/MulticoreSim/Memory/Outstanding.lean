import MulticoreSim.Memory.Cache
import Mathlib.Data.List.Pairwise

/-! # Misses that wait for their fill

No request is held by two slots of an MSHR table, and a slot that waits for a
fill is left alone by everything but the fill of its own block. A cache whose
misses go to a coherence sink asks for a block only where no slot is in use for
it.
-/

namespace Memory

variable {α : Type} {p : α → Bool} {f : α → α}

/-! ## Rewriting the first match -/

theorem mem_modifyFirst {l : List α} {x : α} (mem : x ∈ modifyFirst p f l) :
    x ∈ l ∨ ∃ y ∈ l, p y = true ∧ x = f y := by
  induction l with
  | nil => cases mem
  | cons y rest ih =>
      unfold modifyFirst at mem
      split at mem
      · next meets =>
          rcases List.mem_cons.mp mem with rfl | mem
          · exact .inr ⟨y, List.mem_cons_self, meets, rfl⟩
          · exact .inl (List.mem_cons_of_mem _ mem)
      · rcases List.mem_cons.mp mem with rfl | mem
        · exact .inl List.mem_cons_self
        · rcases ih mem with old | ⟨z, mem, meets, eq⟩
          · exact .inl (List.mem_cons_of_mem _ old)
          · exact .inr ⟨z, List.mem_cons_of_mem _ mem, meets, eq⟩

/-- What does not meet the test stays. -/
theorem modifyFirst_keeps {l : List α} {x : α} (mem : x ∈ l) (unmet : p x = false) :
    x ∈ modifyFirst p f l := by
  induction l with
  | nil => cases mem
  | cons y rest ih =>
      unfold modifyFirst
      rcases List.mem_cons.mp mem with rfl | mem
      · rw [if_neg (by simp [unmet])]
        exact List.mem_cons_self
      · split
        · exact List.mem_cons_of_mem _ mem
        · exact List.mem_cons_of_mem _ (ih mem)

/-- What the list holds stays, or is what was rewritten. -/
theorem modifyFirst_moves {l : List α} {x : α} (mem : x ∈ l) :
    x ∈ modifyFirst p f l ∨ f x ∈ modifyFirst p f l := by
  induction l with
  | nil => cases mem
  | cons y rest ih =>
      unfold modifyFirst
      rcases List.mem_cons.mp mem with rfl | mem
      · split
        · exact .inr List.mem_cons_self
        · exact .inl List.mem_cons_self
      · split
        · exact .inl (List.mem_cons_of_mem _ mem)
        · exact (ih mem).imp (List.mem_cons_of_mem _) (List.mem_cons_of_mem _)

/-- Where some element meets the test, one is rewritten. -/
theorem exists_modifyFirst {l : List α} {x : α} (mem : x ∈ l) (meets : p x = true) :
    ∃ y ∈ l, p y = true ∧ f y ∈ modifyFirst p f l := by
  induction l with
  | nil => cases mem
  | cons y rest ih =>
      unfold modifyFirst
      split
      · next here => exact ⟨y, List.mem_cons_self, here, List.mem_cons_self⟩
      · next unmet =>
          rcases List.mem_cons.mp mem with rfl | mem
          · exact absurd meets unmet
          · obtain ⟨z, mem, here, done⟩ := ih mem
            exact ⟨z, List.mem_cons_of_mem _ mem, here, List.mem_cons_of_mem _ done⟩

theorem modifyFirst_pairwise {R : α → α → Prop} {l : List α} (pairs : l.Pairwise R)
    (left : ∀ x ∈ l, p x = true → ∀ y ∈ l, R x y → R (f x) y)
    (right : ∀ x ∈ l, ∀ y ∈ l, p y = true → R x y → R x (f y)) :
    (modifyFirst p f l).Pairwise R := by
  induction l with
  | nil => exact .nil
  | cons x rest ih =>
      obtain ⟨first, pairs⟩ := List.pairwise_cons.mp pairs
      unfold modifyFirst
      split
      · next meets =>
          refine List.pairwise_cons.mpr ⟨fun y mem => ?_, pairs⟩
          exact left x List.mem_cons_self meets y (List.mem_cons_of_mem _ mem) (first y mem)
      · refine List.pairwise_cons.mpr ⟨fun y mem => ?_, ih pairs ?_ ?_⟩
        · rcases mem_modifyFirst mem with old | ⟨z, inside, meets, rfl⟩
          · exact first y old
          · exact right x List.mem_cons_self z (List.mem_cons_of_mem _ inside) meets (first z inside)
        · exact fun y mem meets z mem' =>
            left y (List.mem_cons_of_mem _ mem) meets z (List.mem_cons_of_mem _ mem')
        · exact fun y mem z mem' =>
            right y (List.mem_cons_of_mem _ mem) z (List.mem_cons_of_mem _ mem')

/-! ## Who holds a slot -/

/-- The requests a slot is in use for. -/
def MSHREntry.holders (e : MSHREntry) : List Nat := if e.valid then e.id :: e.mergedIds else []

theorem MSHREntry.holds_iff (e : MSHREntry) (id : Nat) : e.holds id = true ↔ id ∈ e.holders := by
  cases valid : e.valid <;> simp [MSHREntry.holds, MSHREntry.holders, valid, @eq_comm _ id]

/-- A slot that nothing but the fill of its block wakes up. -/
structure MSHREntry.Waits (e : MSHREntry) (blockAddr : Nat) : Prop where
  valid : e.valid = true
  unready : e.ready = false
  due : e.dueCycle = Cache.never
  block : e.blockAddr = blockAddr

theorem MSHREntry.Waits.targets {e : MSHREntry} {blockAddr : Nat} (waits : e.Waits blockAddr) :
    e.targets blockAddr = true := by
  simp [MSHREntry.targets, waits.valid, waits.block]

namespace MSHR

/-- No request holds two slots, and every request has been given its id. -/
structure Sound (m : MSHR) (nextId : Nat) : Prop where
  used : ∀ e ∈ m.table, ∀ id ∈ e.holders, id < nextId
  apart : m.table.Pairwise fun e e' => ∀ id ∈ e.holders, id ∉ e'.holders

def Waiting (m : MSHR) (blockAddr : Nat) : Prop := ∃ e ∈ m.table, e.Waits blockAddr

variable {m : MSHR} {n n' b id : Nat}

theorem Sound.make (numEntries : Nat) : (MSHR.make numEntries).Sound n where
  used e mem := by
    cases List.eq_of_mem_replicate mem
    intro id mem
    cases mem
  apart := by
    refine List.pairwise_replicate.mpr (.inr fun id held => ?_)
    cases held

/-- Two slots in use for one request are one. -/
theorem Sound.same (sound : m.Sound n) {e e' : MSHREntry} (mem : e ∈ m.table) (mem' : e' ∈ m.table)
    (held : id ∈ e.holders) (held' : id ∈ e'.holders) : e = e' := by
  by_contra ne
  have : Std.Symm fun e e' : MSHREntry => ∀ id ∈ e.holders, id ∉ e'.holders :=
    ⟨fun _ _ apart id held held' => apart id held' held⟩
  exact sound.apart.forall mem mem' ne id held held'

/-- A slot rewritten with holders of its own and new ones. -/
theorem Sound.modifyFirst {p : MSHREntry → Bool} {f : MSHREntry → MSHREntry} (sound : m.Sound n)
    (le : n ≤ n')
    (own : ∀ e ∈ m.table, p e = true → ∀ id ∈ (f e).holders, id ∈ e.holders ∨ n ≤ id ∧ id < n') :
    Sound ⟨Memory.modifyFirst p f m.table⟩ n' where
  used e mem id held := by
    rcases mem_modifyFirst mem with old | ⟨e', old, meets, rfl⟩
    · exact Nat.lt_of_lt_of_le (sound.used e old id held) le
    · rcases own e' old meets id held with held | new
      · exact Nat.lt_of_lt_of_le (sound.used e' old id held) le
      · exact new.2
  apart := by
    refine modifyFirst_pairwise sound.apart ?_ ?_
    · intro e mem meets e' mem' apart id held held'
      rcases own e mem meets id held with held | new
      · exact apart id held held'
      · exact absurd (sound.used e' mem' id held') (by omega)
    · intro e mem e' mem' meets apart id held held'
      rcases own e' mem' meets id held' with held' | new
      · exact apart id held held'
      · exact absurd (sound.used e mem id held) (by omega)

theorem Sound.markReady (sound : m.Sound n) (id : Nat) : (m.markReady id).Sound n :=
  sound.modifyFirst (Nat.le_refl _) fun _ _ _ _ held => .inl held

theorem Sound.release (sound : m.Sound n) (id : Nat) : (m.release id).Sound n := by
  refine sound.modifyFirst (Nat.le_refl _) fun e _ held id' held' => .inl ?_
  have valid : e.valid = true := by
    unfold MSHREntry.holds at held
    exact (Bool.and_eq_true _ _ ▸ held).1
  unfold releaseEntry at held'
  split at held'
  · split at held'
    · simp [MSHREntry.holders] at held'
    · next next rest merged =>
        simp only [MSHREntry.holders, valid, if_true] at held' ⊢
        rw [merged]
        exact List.mem_cons_of_mem _ held'
  · simp only [MSHREntry.holders, valid, if_true] at held' ⊢
    rcases List.mem_cons.mp held' with rfl | held'
    · exact List.mem_cons_self
    · exact List.mem_cons_of_mem _ (List.mem_of_mem_erase held')

theorem Sound.tick (sound : m.Sound n) (now : Nat) : (m.tick now).Sound n := by
  have same (e : MSHREntry) :
      (if e.valid ∧ e.ready = false ∧ e.dueCycle ≤ now then { e with ready := true } else e).holders =
        e.holders := by
    split <;> rfl
  refine ⟨fun e mem id held => ?_, ?_⟩
  · obtain ⟨e', old, rfl⟩ := List.mem_map.mp mem
    rw [same] at held
    exact sound.used e' old id held
  · refine List.pairwise_map.mpr (sound.apart.imp ?_)
    intro e e' apart id held held'
    rw [same] at held held'
    exact apart id held held'

theorem Sound.allocate {m' : MSHR} {op : Op} {pc due : Nat} {result : AccessResult}
    (sound : m.Sound n) (allocated : m.allocate n b op pc due result = some m') : m'.Sound (n + 1) := by
  unfold MSHR.allocate at allocated
  split at allocated
  · cases allocated
    refine sound.modifyFirst (Nat.le_succ n) fun e _ meets id held => ?_
    have valid : e.valid = true := by
      unfold MSHREntry.targets at meets
      exact (Bool.and_eq_true _ _ ▸ meets).1
    simp only [MSHREntry.holders, valid, if_true, List.mem_cons, List.mem_append,
      List.not_mem_nil, or_false] at held ⊢
    rcases held with rfl | held | rfl
    · exact .inl (.inl rfl)
    · exact .inl (.inr held)
    · exact .inr ⟨Nat.le_refl _, Nat.lt_succ_self _⟩
  · split at allocated
    · cases allocated
    · cases allocated
      refine sound.modifyFirst (Nat.le_succ n) fun e _ _ id held => .inr ?_
      simp only [MSHREntry.holders, if_true, List.mem_singleton] at held
      omega

/-! ## What leaves a waiting slot alone -/

theorem Waiting.markReady {e : MSHREntry} (mem : e ∈ m.table) (other : id ∉ e.holders) :
    e ∈ (m.markReady id).table :=
  modifyFirst_keeps mem (by
    rw [Bool.eq_false_iff]
    exact fun held => other ((e.holds_iff id).mp held))

/-- A fill wakes up the slots of its own block only. -/
theorem Waiting.markBlockReady (waiting : m.Waiting b) (sound : m.Sound n) {b' : Nat} (ne : b' ≠ b) :
    (m.markBlockReady b').Waiting b := by
  obtain ⟨e, mem, waits⟩ := waiting
  have others : ∀ id ∈ (m.table.filter (·.targets b')).flatMap fun e => e.id :: e.mergedIds,
      id ∉ e.holders := by
    intro id held held'
    obtain ⟨e', mem', held⟩ := List.mem_flatMap.mp held
    obtain ⟨mem', targets⟩ := List.mem_filter.mp mem'
    simp only [MSHREntry.targets, Bool.and_eq_true, beq_iff_eq] at targets
    have same : e = e' := by
      refine sound.same mem mem' held' ?_
      simpa only [MSHREntry.holders, targets.1, if_true] using held
    exact ne (targets.2.symm.trans (same ▸ waits.block))
  suffices ∀ ids : List Nat, ∀ m : MSHR, e ∈ m.table → (∀ id ∈ ids, id ∉ e.holders) →
      e ∈ (ids.foldl MSHR.markReady m).table from ⟨e, this _ m mem others, waits⟩
  intro ids
  induction ids with
  | nil => exact fun _ mem _ => mem
  | cons id rest ih =>
      intro m mem others
      exact ih _ (Waiting.markReady mem (others id List.mem_cons_self))
        fun id' mem' => others id' (List.mem_cons_of_mem _ mem')

theorem Sound.markBlockReady (sound : m.Sound n) (b : Nat) : (m.markBlockReady b).Sound n := by
  unfold MSHR.markBlockReady
  generalize (m.table.filter (·.targets b)).flatMap (fun e => e.id :: e.mergedIds) = ids
  induction ids generalizing m with
  | nil => exact sound
  | cons id rest ih => exact ih (sound.markReady id)

/-- Only a request that is ready is released. -/
theorem Waiting.release (waiting : m.Waiting b) (sound : m.Sound n) {e : MSHREntry}
    (found : m.find id = some e) (ready : e.ready = true) : (m.release id).Waiting b := by
  obtain ⟨e', mem, waits⟩ := waiting
  refine ⟨e', modifyFirst_keeps mem ?_, waits⟩
  rw [Bool.eq_false_iff]
  intro held
  have same : e' = e :=
    sound.same mem (List.mem_of_find?_eq_some found) ((e'.holds_iff id).mp held)
      ((e.holds_iff id).mp (by simpa using List.find?_some found))
  cases (same ▸ waits.unready).symm.trans ready

theorem Waiting.tick (waiting : m.Waiting b) {now : Nat} (early : now < Cache.never) :
    (m.tick now).Waiting b := by
  obtain ⟨e, mem, waits⟩ := waiting
  refine ⟨e, ?_, waits⟩
  refine List.mem_map.mpr ⟨e, mem, if_neg ?_⟩
  rintro ⟨-, -, due⟩
  rw [waits.due] at due
  omega

theorem Waiting.allocate {m' : MSHR} {op : Op} {pc due b' : Nat} {result : AccessResult}
    (waiting : m.Waiting b) (allocated : m.allocate n b' op pc due result = some m') :
    m'.Waiting b := by
  obtain ⟨e, mem, waits⟩ := waiting
  unfold MSHR.allocate at allocated
  split at allocated
  · cases allocated
    rcases modifyFirst_moves (p := (·.targets b'))
      (f := fun e : MSHREntry => { e with mergedIds := e.mergedIds ++ [n] }) mem with same | moved
    · exact ⟨e, same, waits⟩
    · exact ⟨_, moved, ⟨waits.valid, waits.unready, waits.due, waits.block⟩⟩
  · split at allocated
    · cases allocated
    · cases allocated
      exact ⟨e, modifyFirst_keeps mem (by simp [waits.valid]), waits⟩

/-- A slot taken for a block that no slot is in use for. -/
theorem Waiting.allocated (n : Nat) (op : Op) (pc : Nat) (result : AccessResult)
    (unused : ∀ e ∈ m.table, e.targets b = false) (room : m.full = false) :
    ∃ m', m.allocate n b op pc Cache.never result = some m' ∧ m'.Waiting b := by
  have none : m.table.any (·.targets b) = false := by simpa using unused
  obtain ⟨e, mem, invalid⟩ : ∃ e ∈ m.table, e.valid = false := by simpa [MSHR.full] using room
  refine ⟨_, by rw [MSHR.allocate, none, room]; rfl, ?_⟩
  obtain ⟨e', -, -, taken⟩ := exists_modifyFirst (p := fun e : MSHREntry => !e.valid)
    (f := fun _ => { id := n, blockAddr := b, op, pc, valid := true, dueCycle := Cache.never, result })
    mem (by simp [invalid])
  exact ⟨_, taken, ⟨rfl, rfl, rfl, rfl⟩⟩

end MSHR

/-! ## Calls that leave the table alone -/

namespace Cache

/-- Same settings, table, clock and next id. -/
structure SameTable (c c' : Cache) : Prop where
  cfg : c'.cfg = c.cfg
  mshr : c'.mshr = c.mshr
  now : c'.now = c.now
  nextId : c'.nextId = c.nextId

variable {c c' c'' : Cache} {β : Below} {below : β.State} {req : MemReq} {b : Nat}

theorem SameTable.refl : SameTable c c := ⟨rfl, rfl, rfl, rfl⟩

theorem SameTable.trans (first : SameTable c c') (second : SameTable c' c'') : SameTable c c'' :=
  ⟨second.cfg.trans first.cfg, second.mshr.trans first.mshr, second.now.trans first.now,
    second.nextId.trans first.nextId⟩

theorem setRow_same (row : List TagMeta) : SameTable c (c.setRow b row) := ⟨rfl, rfl, rfl, rfl⟩

theorem bump_same (f : CacheStats → CacheStats) : SameTable c (c.bump f) := ⟨rfl, rfl, rfl, rfl⟩

theorem place_same (line : TagMeta) : SameTable c (c.place b line) := ⟨rfl, rfl, rfl, rfl⟩

theorem promote_same (f : TagMeta → TagMeta) : SameTable c (c.promote b f) := by
  unfold promote
  split
  · exact .refl
  · exact setRow_same _

theorem coherenceInvalidate_same : SameTable c (c.coherenceInvalidate b) := by
  unfold coherenceInvalidate
  split
  · exact (setRow_same _).trans (bump_same _)
  · exact .refl

theorem coherenceMark_same (dirty : Bool) : SameTable c (c.coherenceMark b dirty) := setRow_same _

theorem dropLru_same : SameTable c (c.dropLru b) := by
  unfold dropLru
  simp only
  split
  · split
    · exact (setRow_same _).trans (bump_same _)
    · exact setRow_same _
  · exact setRow_same _

theorem evictLru_same : SameTable c (c.evictLru below b).cache := by
  unfold evictLru
  split
  · exact .refl
  · simp only
    split
    · split <;> exact ⟨rfl, rfl, rfl, rfl⟩
    · split
      · split <;> exact ⟨rfl, rfl, rfl, rfl⟩
      · exact ⟨rfl, rfl, rfl, rfl⟩

theorem insertNewBlock_same (write isPrefetch : Bool) :
    SameTable c (c.insertNewBlock below write b isPrefetch).cache := by
  unfold insertNewBlock
  simp only
  split
  · refine SameTable.trans ?_ (place_same _)
    split
    · exact evictLru_same
    · exact .refl
  · refine SameTable.trans ?_ (place_same _)
    split
    · exact dropLru_same
    · exact .refl

theorem fetch_same (write : Bool) (op : Op) : SameTable c (c.fetch below req write op).1.cache := by
  unfold fetch
  simp only
  split
  · split
    · exact .refl
    · exact insertNewBlock_same _ _
  · split
    · exact .refl
    · exact insertNewBlock_same _ _

theorem accessWbwa_same : SameTable c (c.accessWbwa below req).1.cache := by
  unfold accessWbwa
  simp only
  split
  · split
    · exact (promote_same id).trans ⟨rfl, rfl, rfl, rfl⟩
    · exact (bump_same _).trans (promote_same _)
  · exact (bump_same _).trans (fetch_same _ _)

theorem accessWtwna_same : SameTable c (c.accessWtwna below req).1.cache := by
  unfold accessWtwna
  simp only
  split
  · exact promote_same _
  · split
    · exact (bump_same _).trans (promote_same _)
    · exact (bump_same _).trans (fetch_same _ _)

theorem access_same (c : Cache) (below : β.State) (req : MemReq) :
    SameTable c (c.access below req).1.cache := by
  unfold access
  simp only
  split
  · exact (bump_same _).trans accessWbwa_same
  · exact (bump_same _).trans accessWtwna_same

theorem fill_same (write : Bool) : SameTable c (c.fill below b write).cache := by
  unfold fill
  split
  · simp only
    split
    · exact coherenceMark_same _
    · exact .refl
  · exact insertNewBlock_same _ _

/-! ## The bottom level of a coherent core -/

/-- What an access asks of the sink: nothing, or the block it then waits for. -/
def Asks (blockAddr : Nat) (x : Result .cache × AccessResult) : Prop :=
  x.1.calls = [] ∨
    ∃ op, x.1.calls = [.onMiss blockAddr op] ∧ x.2.latency = coherenceSuspendedLatency

instance (blockAddr : Nat) (x : Result .cache × AccessResult) : Decidable (Asks blockAddr x) := by
  let asked (op : Op) : Prop :=
    x.1.calls = [.onMiss blockAddr op] ∧ x.2.latency = coherenceSuspendedLatency
  refine decidable_of_iff (x.1.calls = [] ∨ asked .read ∨ asked .write ∨ asked .prefetch) ?_
  refine or_congr_right ⟨?_, ?_⟩
  · rintro (own | own | own)
    · exact ⟨.read, own⟩
    · exact ⟨.write, own⟩
    · exact ⟨.prefetch, own⟩
  · rintro ⟨op, own⟩
    cases op with
    | read => exact .inl own
    | write => exact .inr (.inl own)
    | prefetch => exact .inr (.inr own)

theorem fetch_asks (bottom : c.cfg.coherenceSink = true) (write : Bool) (op : Op) :
    Asks (c.getBlockAddr req.addr) (c.fetch (β := .cache) none req write op) ∧
      (c.fetch (β := .cache) none req write op).1.below = none := by
  unfold fetch
  simp only [Below.cache, Option.map_none]
  rw [if_pos bottom]
  exact ⟨.inr ⟨_, rfl, rfl⟩, rfl⟩

theorem accessWbwa_asks (bottom : c.cfg.coherenceSink = true) :
    Asks (c.getBlockAddr req.addr) (c.accessWbwa (β := .cache) none req) ∧
      (c.accessWbwa (β := .cache) none req).1.below = none := by
  unfold accessWbwa
  simp only
  split
  · split
    · exact ⟨.inr ⟨_, rfl, rfl⟩, rfl⟩
    · exact ⟨.inl rfl, rfl⟩
  · exact fetch_asks (c := c.bump _) bottom _ _

theorem accessWtwna_asks (bottom : c.cfg.coherenceSink = true) :
    Asks (c.getBlockAddr req.addr) (c.accessWtwna (β := .cache) none req) ∧
      (c.accessWtwna (β := .cache) none req).1.below = none := by
  unfold accessWtwna
  simp only
  split
  · exact ⟨.inl rfl, rfl⟩
  · split
    · exact ⟨.inl rfl, rfl⟩
    · exact fetch_asks (c := c.bump _) bottom _ _

theorem access_asks (req : MemReq) (bottom : c.cfg.coherenceSink = true) :
    Asks (c.getBlockAddr req.addr) (c.access (β := .cache) none req) ∧
      (c.access (β := .cache) none req).1.below = none := by
  unfold access
  simp only
  split
  · exact accessWbwa_asks (c := c.bump _) bottom
  · exact accessWtwna_asks (c := c.bump _) bottom

/-- A fill asks for nothing. -/
theorem fill_evicts (bottom : c.cfg.coherenceSink = true) (write : Bool) :
    (∀ call ∈ (c.fill (β := .cache) none b write).calls, ∃ v dirty, call = .onEvict v dirty) ∧
      (c.fill (β := .cache) none b write).below = none := by
  have evicts : (∀ call ∈ (c.evictLru (β := .cache) none b).calls, ∃ v dirty, call = .onEvict v dirty) ∧
      (c.evictLru (β := .cache) none b).below = none := by
    unfold evictLru
    split
    · exact ⟨fun _ mem => (nomatch mem), rfl⟩
    · simp only
      rw [if_pos bottom]
      exact ⟨fun call mem => ⟨_, _, List.mem_singleton.mp mem⟩, rfl⟩
  unfold fill
  split
  · exact ⟨fun _ mem => (nomatch mem), rfl⟩
  · unfold insertNewBlock
    simp only
    split
    · split
      · exact evicts
      · exact ⟨fun _ mem => (nomatch mem), rfl⟩
    · exact ⟨fun _ mem => (nomatch mem), rfl⟩

/-- Nor does a fill of a cache over nothing. -/
theorem fill_nothing_evicts (write : Bool) :
    ∀ call ∈ (c.fill (β := .nothing) () b write).calls, ∃ v dirty, call = .onEvict v dirty := by
  have evicts : ∀ call ∈ (c.evictLru (β := .nothing) () b).calls, ∃ v dirty, call = .onEvict v dirty := by
    unfold evictLru
    split
    · exact fun _ mem => (nomatch mem)
    · simp only
      split
      · exact fun call mem => ⟨_, _, List.mem_singleton.mp mem⟩
      · split <;> exact fun _ mem => (nomatch mem)
  unfold fill
  split
  · exact fun _ mem => (nomatch mem)
  · unfold insertNewBlock
    simp only
    split
    · split
      · exact evicts
      · exact fun _ mem => (nomatch mem)
    · exact fun _ mem => (nomatch mem)

/-! ## Requests -/

/-- The table of a cache in use. -/
def Sound (c : Cache) : Prop := c.mshr.Sound c.nextId

def Waiting (c : Cache) (blockAddr : Nat) : Prop := c.mshr.Waiting blockAddr

theorem Sound.same (sound : c.Sound) (same : SameTable c c') : c'.Sound := by
  unfold Cache.Sound
  rw [same.mshr, same.nextId]
  exact sound

theorem Waiting.same (waiting : c.Waiting b) (same : SameTable c c') : c'.Waiting b := by
  unfold Cache.Waiting
  rw [same.mshr]
  exact waiting

/-- An id given out, to a slot if the table has one. -/
theorem Sound.allocated (sound : c.Sound) {op : Op} {pc due : Nat} {result : AccessResult} :
    Cache.Sound { c with
      mshr := (c.mshr.allocate c.nextId b op pc due result).getD c.mshr
      nextId := c.nextId + 1 } := by
  cases allocated : c.mshr.allocate c.nextId b op pc due result with
  | none => exact ⟨fun e mem id held => Nat.lt_succ_of_lt (sound.used e mem id held), sound.apart⟩
  | some m => exact MSHR.Sound.allocate sound allocated

theorem Waiting.allocated {b' : Nat} (waiting : c.Waiting b) {op : Op} {pc due : Nat}
    {result : AccessResult} :
    Cache.Waiting { c with
      mshr := (c.mshr.allocate c.nextId b' op pc due result).getD c.mshr
      nextId := c.nextId + 1 } b := by
  cases allocated : c.mshr.allocate c.nextId b' op pc due result with
  | none => exact waiting
  | some m => exact MSHR.Waiting.allocate waiting allocated

/-- What a request leaves of the table, and of the slots that wait. -/
theorem issue_keeps (below : β.State) (req : MemReq) (sound : c.Sound) :
    (c.issue below req).1.cache.Sound ∧
      (∀ b, c.Waiting b → (c.issue below req).1.cache.Waiting b) ∧
      (c.issue below req).1.cache.cfg = c.cfg ∧ (c.issue below req).1.cache.now = c.now := by
  unfold issue
  simp only
  split
  · exact ⟨sound.allocated, fun b waiting => waiting.allocated, rfl, rfl⟩
  · split
    · exact ⟨sound, fun b => id, rfl, rfl⟩
    · have same := access_same c below req
      exact ⟨(sound.same same).allocated, fun b waiting => (waiting.same same).allocated, same.cfg,
        same.now⟩

/-- A request that no slot targets and whose access asks the sink for its own block or for
    nothing asks for the block its new slot waits for. -/
theorem issue_asks (below : Option Cache) (req : MemReq)
    (asks : Asks (c.getBlockAddr req.addr) (c.access (β := .cache) below req))
    (alone : req.op = .write → ∀ e ∈ c.mshr.table, e.targets (c.getBlockAddr req.addr) = false) :
    (c.issue (β := .cache) below req).1.calls = [] ∨
      ∃ op, (c.issue (β := .cache) below req).1.calls = [.onMiss (c.getBlockAddr req.addr) op] ∧
        ¬ c.Waiting (c.getBlockAddr req.addr) ∧
        (c.issue (β := .cache) below req).1.cache.Waiting (c.getBlockAddr req.addr) := by
  unfold issue
  simp only
  split
  · exact .inl rfl
  · next unmet =>
      split
      · exact .inl rfl
      · next room =>
          have unused : ∀ e ∈ c.mshr.table, e.targets (c.getBlockAddr req.addr) = false := by
            intro e mem
            by_cases write : req.op = .write
            · exact alone write e mem
            · simpa [write] using List.find?_eq_none.mp unmet e mem
          apply asks.imp_right
          rintro ⟨op, calls, suspended⟩
          refine ⟨op, calls, ?_, ?_⟩
          · rintro ⟨e, mem, waits⟩
            cases (unused e mem).symm.trans waits.targets
          · simp only
            rw [if_pos suspended]
            have same := access_same (β := .cache) c below req
            obtain ⟨m, allocated, waiting⟩ := MSHR.Waiting.allocated
              (m := (c.access (β := .cache) below req).1.cache.mshr)
              (c.access (β := .cache) below req).1.cache.nextId req.op req.pc
              (c.access (β := .cache) below req).2
              (by rw [same.mshr]; exact unused) (by rw [same.mshr]; simpa using room)
            change MSHR.Waiting (Option.getD _ _) _
            rw [allocated]
            exact waiting

end Cache

end Memory
