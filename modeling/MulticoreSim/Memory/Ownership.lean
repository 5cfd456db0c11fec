import MulticoreSim.Memory.CacheRuns
import MulticoreSim.Memory.Outstanding

/-! # Who owns a slot

Every id that was returned and not yet completed is held by one slot, no other
id is held, and completing one leaves what the others see.
-/

namespace Memory

/-! ## Rewriting the first match -/

section

variable {α γ : Type} {p : α → Bool} {f : α → α}

theorem modifyFirst_none {l : List α} (none : ∀ x ∈ l, p x = false) : modifyFirst p f l = l := by
  induction l with
  | nil => rfl
  | cons x rest ih =>
      unfold modifyFirst
      rw [none x List.mem_cons_self, ih fun y mem => none y (List.mem_cons_of_mem _ mem)]
      rfl

/-- A search that the rewriting does not touch finds the same. -/
theorem find_modifyFirst {q : α → Bool} {g : α → γ} (l : List α)
    (same : ∀ x ∈ l, p x = true → q (f x) = q x ∧ (q x = true → g (f x) = g x)) :
    ((modifyFirst p f l).find? q).map g = (l.find? q).map g := by
  induction l with
  | nil => rfl
  | cons x rest ih =>
      have tail := ih fun y mem => same y (List.mem_cons_of_mem _ mem)
      unfold modifyFirst
      cases meets : p x with
      | true =>
          obtain ⟨test, view⟩ := same x List.mem_cons_self meets
          simp only [if_true]
          cases found : q x with
          | true => simp [found, test, view found]
          | false => simp [found, test]
      | false =>
          simp only [Bool.false_eq_true, if_false]
          cases found : q x with
          | true => simp [found]
          | false => simpa [found] using tail

/-- What the rewriting of one element adds to its parts and takes from them, it adds to and
    takes from all. -/
theorem perm_modifyFirst (g : α → List γ) (gone new : List γ) {l : List α}
    (found : ∃ x ∈ l, p x = true)
    (parts : ∀ x ∈ l, p x = true → (gone ++ g (f x)).Perm (new ++ g x)) :
    (gone ++ (modifyFirst p f l).flatMap g).Perm (new ++ l.flatMap g) := by
  induction l with
  | nil =>
      obtain ⟨x, mem, -⟩ := found
      cases mem
  | cons x rest ih =>
      unfold modifyFirst
      split
      · next meets =>
          have one := parts x List.mem_cons_self meets
          rw [List.flatMap_cons, List.flatMap_cons, ← List.append_assoc, ← List.append_assoc]
          exact one.append_right _
      · next unmet =>
          have found : ∃ y ∈ rest, p y = true := by
            obtain ⟨y, mem, meets⟩ := found
            rcases List.mem_cons.mp mem with rfl | mem
            · exact absurd meets unmet
            · exact ⟨y, mem, meets⟩
          have tail := ih found fun y mem => parts y (List.mem_cons_of_mem _ mem)
          rw [List.flatMap_cons, List.flatMap_cons]
          have aside := tail.append_left (g x)
          exact (List.perm_append_comm_assoc _ _ _).trans
            (aside.trans (List.perm_append_comm_assoc _ _ _))

end

/-! ## What the holders of a slot see -/

/-- A slot without its holders. -/
def MSHREntry.card (e : MSHREntry) : MSHREntry := { e with id := 0, mergedIds := [] }

/-- A slot after a tick. -/
def MSHREntry.ticked (now : Nat) (e : MSHREntry) : MSHREntry :=
  if e.valid ∧ e.ready = false ∧ e.dueCycle ≤ now then { e with ready := true } else e

theorem MSHREntry.ticked_fields (now : Nat) (e : MSHREntry) :
    (e.ticked now).valid = e.valid ∧ (e.ticked now).blockAddr = e.blockAddr ∧
      (e.ticked now).dueCycle = e.dueCycle ∧ (e.ticked now).result = e.result ∧
      (e.ticked now).holders = e.holders := by
  unfold ticked
  split <;> exact ⟨rfl, rfl, rfl, rfl, rfl⟩

theorem MSHREntry.targets_iff {e : MSHREntry} {b : Nat} :
    e.targets b = true ↔ e.valid = true ∧ e.blockAddr = b := by
  rw [targets, Bool.and_eq_true, beq_iff_eq]

namespace MSHR

variable {m m' : MSHR} {id other b n : Nat} {held : List Nat} {op : Op} {pc due : Nat} {result : AccessResult}

theorem releaseEntry_other {e : MSHREntry} (ne : other ≠ id) (own : e.holds id = true) :
    (releaseEntry id e).holds other = e.holds other ∧
      (e.holds other = true → (releaseEntry id e).card = e.card) := by
  have valid : e.valid = true := by
    unfold MSHREntry.holds at own
    exact (Bool.and_eq_true _ _ ▸ own).1
  have apart : (id == other) = false := beq_false_of_ne (Ne.symm ne)
  unfold releaseEntry
  split
  · next primary =>
      split
      · next alone =>
          have unheld : e.holds other = false := by simp [MSHREntry.holds, primary, alone, apart]
          refine ⟨unheld.symm, fun holds => ?_⟩
          cases unheld.symm.trans holds
      · next next rest merged =>
          refine ⟨?_, fun _ => rfl⟩
          simp only [MSHREntry.holds, primary, merged, apart, List.contains_cons, Bool.false_or]
          rw [Bool.beq_comm]
  · exact ⟨by simp [MSHREntry.holds, List.mem_erase_of_ne ne], fun _ => rfl⟩

/-- Completing an id changes nothing for another. -/
theorem find_release (ne : other ≠ id) :
    ((m.release id).find other).map (·.card) = (m.find other).map (·.card) :=
  find_modifyFirst _ fun _ _ own => releaseEntry_other ne own

/-- A new request changes nothing for another. -/
theorem find_allocate (ne : other ≠ n) (allocated : m.allocate n b op pc due result = some m') :
    (m'.find other).map (·.card) = (m.find other).map (·.card) := by
  unfold MSHR.allocate at allocated
  split at allocated
  · cases allocated
    apply find_modifyFirst
    intro e _ _
    exact ⟨by simp [MSHREntry.holds, ne], fun _ => rfl⟩
  · split at allocated
    · cases allocated
    · cases allocated
      apply find_modifyFirst
      intro e _ free
      have invalid : e.holds other = false := by
        simp only [Bool.not_eq_true'] at free
        simp [MSHREntry.holds, free]
      have apart : (n == other) = false := beq_false_of_ne (Ne.symm ne)
      refine ⟨?_, fun holds => ?_⟩
      · rw [invalid]
        simp [MSHREntry.holds, apart]
      cases invalid.symm.trans holds

/-! ## The ids and the blocks of a table -/

/-- The slots in use are for different blocks, and their holders are these ids. -/
structure Owned (m : MSHR) (held : List Nat) : Prop where
  blocks : m.table.Pairwise fun e e' => e.valid = true → e'.valid = true → e.blockAddr ≠ e'.blockAddr
  holders : (m.table.flatMap (·.holders)).Perm held

theorem Owned.make (numEntries : Nat) : (MSHR.make numEntries).Owned [] where
  blocks := by
    apply List.pairwise_replicate.mpr
    right
    intro valid
    cases valid
  holders := by
    have none : (MSHR.make numEntries).table.flatMap (·.holders) = [] := by
      apply List.flatMap_eq_nil_iff.mpr
      intro e mem
      cases List.eq_of_mem_replicate mem
      rfl
    rw [none]

/-- A slot may be rewritten that keeps its block. -/
theorem Owned.blocks_modifyFirst (owned : m.Owned held) {p : MSHREntry → Bool}
    {f : MSHREntry → MSHREntry}
    (keeps : ∀ e, p e = true → (f e).valid = true → e.valid = true ∧ (f e).blockAddr = e.blockAddr) :
    (modifyFirst p f m.table).Pairwise fun e e' =>
      e.valid = true → e'.valid = true → e.blockAddr ≠ e'.blockAddr := by
  apply modifyFirst_pairwise owned.blocks
  · intro e _ meets e' _ apart valid valid'
    obtain ⟨old, block⟩ := keeps e meets valid
    rw [block]
    exact apart old valid'
  · intro e _ e' _ meets apart valid valid'
    obtain ⟨old, block⟩ := keeps e' meets valid'
    rw [block]
    exact apart valid old

theorem Owned.markReady (owned : m.Owned held) (id : Nat) : (m.markReady id).Owned held where
  blocks := owned.blocks_modifyFirst fun _ _ valid => ⟨valid, rfl⟩
  holders := by
    by_cases found : ∃ e ∈ m.table, e.holds id = true
    · have same := perm_modifyFirst (f := fun e => { e with ready := true })
        (fun e : MSHREntry => e.holders) [] [] found fun _ _ _ => .refl _
      exact same.trans owned.holders
    · have none : ∀ e ∈ m.table, e.holds id = false := by simpa using found
      rw [MSHR.markReady, modifyFirst_none none]
      exact owned.holders

theorem Owned.markBlockReady (owned : m.Owned held) (b : Nat) : (m.markBlockReady b).Owned held := by
  unfold MSHR.markBlockReady
  generalize (m.table.filter (·.targets b)).flatMap (fun e => e.id :: e.mergedIds) = ids
  induction ids generalizing m with
  | nil => exact owned
  | cons id rest ih => exact ih (owned.markReady id)

/-- No slot is in use where no id is held. -/
theorem Owned.free (owned : m.Owned []) {e : MSHREntry} (mem : e ∈ m.table) : e.valid = false := by
  have empty := List.flatMap_eq_nil_iff.mp owned.holders.eq_nil e mem
  cases valid : e.valid with
  | false => rfl
  | true =>
      rw [MSHREntry.holders, if_pos valid] at empty
      cases empty

theorem Owned.tick (owned : m.Owned held) (now : Nat) : (m.tick now).Owned held where
  blocks := by
    apply List.pairwise_map.mpr
    apply owned.blocks.imp
    intro e e' apart valid valid'
    obtain ⟨same, block, -⟩ := e.ticked_fields now
    obtain ⟨same', block', -⟩ := e'.ticked_fields now
    change (e.ticked now).valid = true at valid
    change (e'.ticked now).valid = true at valid'
    change (e.ticked now).blockAddr ≠ (e'.ticked now).blockAddr
    rw [block, block']
    exact apart (same ▸ valid) (same' ▸ valid')
  holders := by
    have all : (m.tick now).table.flatMap (·.holders) = m.table.flatMap (·.holders) := by
      change (m.table.map (MSHREntry.ticked now)).flatMap (·.holders) = _
      simp only [List.flatMap_map, (MSHREntry.ticked_fields now _).2.2.2.2]
    rw [all]
    exact owned.holders

/-- Releasing an id takes it from its holder. -/
theorem releaseEntry_holders {e : MSHREntry} (own : e.holds id = true) :
    e.holders.Perm (id :: (releaseEntry id e).holders) := by
  have held := (e.holds_iff id).mp own
  have valid : e.valid = true := by
    unfold MSHREntry.holds at own
    exact (Bool.and_eq_true _ _ ▸ own).1
  simp only [MSHREntry.holders, valid, if_true] at held ⊢
  unfold releaseEntry
  split
  · next primary =>
      subst primary
      split
      · next alone => simp [alone]
      · next next rest merged => simp [merged, valid]
  · next secondary =>
      have merged : id ∈ e.mergedIds := by simpa [Ne.symm secondary] using held
      simp only
      exact ((List.perm_cons_erase merged).cons e.id).trans (.swap id e.id _)

theorem Owned.release (owned : m.Owned held) (id : Nat) : (m.release id).Owned (held.erase id) where
  blocks := by
    apply owned.blocks_modifyFirst
    intro e own
    have valid : e.valid = true := by
      unfold MSHREntry.holds at own
      exact (Bool.and_eq_true _ _ ▸ own).1
    refine fun _ => ⟨valid, ?_⟩
    unfold releaseEntry
    split
    · split <;> rfl
    · rfl
  holders := by
    by_cases found : ∃ e ∈ m.table, e.holds id = true
    · have taken := perm_modifyFirst (f := releaseEntry id) (fun e : MSHREntry => e.holders) [id] []
        found fun e _ own => (releaseEntry_holders own).symm
      have all : (id :: (m.release id).table.flatMap (·.holders)).Perm held := taken.trans owned.holders
      exact (List.cons_perm_iff_perm_erase.mp all).2
    · have none : ∀ e ∈ m.table, e.holds id = false := by simpa using found
      have outside : id ∉ held := by
        intro mem
        obtain ⟨e, mem, holds⟩ := List.mem_flatMap.mp (owned.holders.mem_iff.mpr mem)
        cases (none e mem).symm.trans ((e.holds_iff id).mpr holds)
      rw [MSHR.release, modifyFirst_none none, List.erase_of_not_mem outside]
      exact owned.holders

theorem Owned.allocate (owned : m.Owned held) (allocated : m.allocate n b op pc due result = some m') :
    m'.Owned (n :: held) := by
  unfold MSHR.allocate at allocated
  split at allocated
  · next used =>
      cases allocated
      have found : ∃ e ∈ m.table, e.targets b = true := List.any_eq_true.mp used
      constructor
      · exact owned.blocks_modifyFirst fun _ _ valid => ⟨valid, rfl⟩
      · have more := perm_modifyFirst (f := fun e : MSHREntry => { e with mergedIds := e.mergedIds ++ [n] })
          (fun e : MSHREntry => e.holders) [] [n] found (by
            intro e _ targets
            simp only [MSHREntry.holders, (MSHREntry.targets_iff.mp targets).1, if_true]
            exact (List.perm_append_comm : ((e.id :: e.mergedIds) ++ [n]).Perm _))
        exact more.trans (owned.holders.cons n)
  · next unused =>
      split at allocated
      · cases allocated
      · next room =>
          cases allocated
          have found : ∃ e ∈ m.table, (!e.valid) = true := by simpa [MSHR.full] using room
          have apart : ∀ e ∈ m.table, e.valid = true → e.blockAddr ≠ b := by
            intro e mem valid block
            exact unused (List.any_eq_true.mpr ⟨e, mem, MSHREntry.targets_iff.mpr ⟨valid, block⟩⟩)
          constructor
          · apply modifyFirst_pairwise owned.blocks
            · intro _ _ _ e mem _ _ valid
              exact (apart e mem valid).symm
            · intro e mem _ _ _ _ valid _
              exact apart e mem valid
          · have more := perm_modifyFirst (p := fun e : MSHREntry => !e.valid)
              (f := fun _ => { id := n, blockAddr := b, op, pc, valid := true, dueCycle := due, result })
              (fun e : MSHREntry => e.holders) [] [n] found (by
                intro e _ free
                have invalid : e.valid = false := by simpa using free
                simp [MSHREntry.holders, invalid])
            exact more.trans (owned.holders.cons n)

theorem countP_holds {table : List MSHREntry} (nodup : (table.flatMap (·.holders)).Nodup) (id : Nat) :
    table.countP (·.holds id) = if id ∈ table.flatMap (·.holders) then 1 else 0 := by
  induction table with
  | nil => rfl
  | cons e rest ih =>
      rw [List.flatMap_cons, List.nodup_append] at nodup
      obtain ⟨-, nodup, apart⟩ := nodup
      rw [List.countP_cons, ih nodup, List.flatMap_cons]
      by_cases here : e.holds id = true
      · have mem := (e.holds_iff id).mp here
        have later : id ∉ rest.flatMap (·.holders) := fun again => apart id mem id again rfl
        simp [here, mem, later]
      · have outside : id ∉ e.holders := fun mem => here ((e.holds_iff id).mpr mem)
        simp [here, outside]

/-- Exactly one slot holds an id that is held, and none another. -/
theorem Owned.count (owned : m.Owned held) (nodup : held.Nodup) (id : Nat) :
    m.table.countP (·.holds id) = if id ∈ held then 1 else 0 := by
  rw [countP_holds (owned.holders.nodup_iff.mpr nodup)]
  simp only [owned.holders.mem_iff]

end MSHR

/-! ## Requests -/

namespace Cache

variable {β : Beneath} {c : Cache}

theorem issuePrefetch_same {β : Below} (c : Cache) (below : β.State) (byteAddr : Nat) :
    SameTable c (c.issuePrefetch below byteAddr).cache := by
  unfold issuePrefetch
  split
  · exact .refl
  · have inserted : SameTable c (c.insertNewBlock below false (c.getBlockAddr byteAddr) true).cache :=
      insertNewBlock_same _ _
    exact inserted.trans ⟨rfl, rfl, rfl, rfl⟩

theorem accessOver_same (c : Cache) (pf : Option Prefetcher) (peer : Option Cache) (below : β.State)
    (req : MemReq) : SameTable c (c.accessOver pf peer below req).1.cache := by
  have demand := access_same (β := β.toBelow) c (β.look below c) req
  unfold accessOver
  simp only
  split
  · exact demand
  · split
    · split
      · exact demand
      · exact demand.trans (issuePrefetch_same _ _ _)
    · exact demand

/-- When a request is due that was answered with `result`. -/
def due (now : Nat) (result : AccessResult) : Nat :=
  if result.latency = coherenceSuspendedLatency then never else (now + result.latency) % 2 ^ 64

/-- A cache whose table has taken in the next id. -/
def holding (c : Cache) (mshr : MSHR) : Cache := { c with mshr, nextId := c.nextId + 1 }

/-- What `issue` does: it turns the request away, lets it join a slot of its block, or carries
    the access out. -/
inductive Issued (c : Cache) (pf : Option Prefetcher) (peer : Option Cache) (below : β.State)
    (req : MemReq) : Result β.toBelow × Option Prefetcher × Option Nat → Prop where
  | rejected (full : c.mshr.full = true) : Issued c pf peer below req ({ cache := c, below }, pf, none)
  | merged {e : MSHREntry} {mshr : MSHR} (mem : e ∈ c.mshr.table) (read : req.op ≠ .write)
      (targets : e.targets (c.getBlockAddr req.addr) = true)
      (taken : c.mshr.allocate c.nextId (c.getBlockAddr req.addr) req.op req.pc e.dueCycle e.result =
        some mshr) :
      Issued c pf peer below req ({ cache := c.holding mshr, below }, pf, some c.nextId)
  | accessed {r : Result β.toBelow} {pf' : Option Prefetcher} {result : AccessResult} {mshr : MSHR}
      (room : c.mshr.full = false) (done : c.accessOver pf peer below req = (r, pf', result))
      (taken : c.mshr.allocate c.nextId (c.getBlockAddr req.addr) req.op req.pc (due c.now result)
        result = some mshr) :
      Issued c pf peer below req
        ({ r with cache := r.cache.holding mshr }, pf', some c.nextId)

theorem allocate_isSome {m : MSHR} {b : Nat}
    (place : (∃ e ∈ m.table, e.targets b = true) ∨ m.full = false) (n : Nat) (op : Op) (pc due : Nat)
    (result : AccessResult) : ∃ m', m.allocate n b op pc due result = some m' := by
  unfold MSHR.allocate
  by_cases used : m.table.any (·.targets b) = true
  · rw [if_pos used]
    exact ⟨_, rfl⟩
  · rw [if_neg used]
    rcases place with ⟨e, mem, targets⟩ | room
    · exact absurd (List.any_eq_true.mpr ⟨e, mem, targets⟩) used
    · rw [if_neg (by simp [room])]
      exact ⟨_, rfl⟩

theorem issueOver_issued (c : Cache) (pf : Option Prefetcher) (peer : Option Cache) (below : β.State)
    (req : MemReq) : Issued c pf peer below req (c.issueOver pf peer below req) := by
  have same := accessOver_same c pf peer below req
  unfold issueOver issueBy
  simp only
  split
  · next e found =>
      have mem := List.mem_of_find?_eq_some found
      have test := List.find?_some found
      simp only [Bool.and_eq_true, decide_eq_true_eq] at test
      obtain ⟨mshr, taken⟩ :=
        allocate_isSome (.inl ⟨e, mem, test.2⟩) c.nextId req.op req.pc e.dueCycle e.result
      simp only [enter, taken, Option.getD_some]
      exact .merged mem test.1 test.2 taken
  · split
    · next full => exact .rejected full
    · next room =>
        have room : c.mshr.full = false := by simpa using room
        generalize done : c.accessOver pf peer below req = x at same ⊢
        obtain ⟨r, pf', result⟩ := x
        obtain ⟨mshr, taken⟩ := allocate_isSome (b := c.getBlockAddr req.addr) (.inr room) c.nextId
          req.op req.pc (due c.now result) result
        have entered := taken
        rw [← same.mshr, ← same.nextId, ← same.now, due] at entered
        simp only [enter, entered, Option.getD_some]
        change Issued c pf peer below req
          ({ r with cache := r.cache.holding mshr }, pf', some r.cache.nextId)
        rw [congrArg some same.nextId]
        exact .accessed room done taken

end Cache

/-! ## Runs -/

/-- A cache in use, with the ids it returned that were not completed. -/
structure Custody (β : Beneath) where
  served : Served β.toBelow
  held : List Nat := []

namespace Custody

variable {β : Beneath} {x : Custody β}

def apply (x : Custody β) : CacheOp β → Custody β
  | .issue peer req =>
      let (served, id) := x.served.issue peer req
      { served, held := id.toList ++ x.held }
  | .complete id => { served := x.served.apply (.complete id), held := x.held.erase id }
  | op => { x with served := x.served.apply op }

def machine (β : Beneath) : Machine (Custody β) (CacheOp β) Empty := ⟨fun x op => .ok (x.apply op)⟩

/-- The table's holders are the ids that are held, each given out once. -/
structure Kept (x : Custody β) : Prop where
  owned : x.served.cache.mshr.Owned x.held
  nodup : x.held.Nodup
  given : ∀ id ∈ x.held, id < x.served.cache.nextId

theorem Kept.same (kept : x.Kept) {s : Served β.toBelow} (same : x.served.cache.SameTable s.cache) :
    Kept { x with served := s } where
  owned := by
    rw [same.mshr]
    exact kept.owned
  nodup := kept.nodup
  given := by
    rw [same.nextId]
    exact kept.given

/-- The next id is taken in. -/
theorem Kept.holding (kept : x.Kept) {b at_ : Nat} {op : Op} {pc : Nat} {result : AccessResult}
    {mshr : MSHR} {s : Served β.toBelow}
    (taken : x.served.cache.mshr.allocate x.served.cache.nextId b op pc at_ result = some mshr)
    (table : s.cache.mshr = mshr) (next : s.cache.nextId = x.served.cache.nextId + 1) :
    Kept { served := s, held := x.served.cache.nextId :: x.held } where
  owned := by
    rw [table]
    exact kept.owned.allocate taken
  nodup := by
    apply List.nodup_cons.mpr
    constructor
    · exact fun mem => Nat.lt_irrefl _ (kept.given _ mem)
    · exact kept.nodup
  given := by
    intro id mem
    rw [next]
    rcases List.mem_cons.mp mem with rfl | mem
    · exact Nat.lt_succ_self _
    · exact Nat.lt_succ_of_lt (kept.given id mem)

theorem kept_issue (kept : x.Kept) (peer : Option Cache) (req : MemReq) :
    (x.apply (.issue peer req)).Kept := by
  have issued := Cache.issueOver_issued x.served.cache x.served.prefetcher peer x.served.below req
  have same := Cache.accessOver_same x.served.cache x.served.prefetcher peer x.served.below req
  simp only [apply, Served.issue]
  generalize x.served.cache.issueOver x.served.prefetcher peer x.served.below req = y at issued
  cases issued with
  | rejected full => exact kept
  | merged mem read targets taken => exact kept.holding taken rfl rfl
  | accessed room done taken =>
      rw [done] at same
      exact kept.holding taken rfl (congrArg (· + 1) same.nextId)

theorem kept_apply (kept : x.Kept) (op : CacheOp β) : (x.apply op).Kept := by
  cases op with
  | access peer req => exact kept.same (Cache.accessOver_same _ _ _ _ _)
  | issue peer req => exact kept_issue kept peer req
  | issuePrefetch byteAddr => exact kept.same (Cache.issuePrefetch_same _ _ _)
  | cacheFill blockAddr write => exact kept.same (Cache.fill_same _)
  | coherenceInvalidate blockAddr => exact kept.same Cache.coherenceInvalidate_same
  | coherenceClean blockAddr => exact kept.same (Cache.coherenceMark_same _)
  | coherenceSetDirty blockAddr => exact kept.same (Cache.coherenceMark_same _)
  | complete id =>
      exact ⟨kept.owned.release id, kept.nodup.erase id,
        fun other mem => kept.given other (List.mem_of_mem_erase mem)⟩
  | tick => exact ⟨kept.owned.tick _, kept.nodup, kept.given⟩
  | markReady id => exact ⟨kept.owned.markReady id, kept.nodup, kept.given⟩
  | below next => exact ⟨kept.owned, kept.nodup, kept.given⟩

theorem kept_run {cfg : Config} {prefetcher : Option Prefetcher} {below : β.State}
    (run : (machine β).Reachable ⟨⟨Cache.build cfg, prefetcher, below⟩, []⟩ x) : x.Kept := by
  apply run.invariant (I := Kept)
  · exact ⟨.make _, List.nodup_nil, fun _ mem => absurd mem List.not_mem_nil⟩
  · intro x op x' kept _ stepped
    cases stepped
    exact kept_apply kept op

/-! ### Ids -/

/-- The requests among some calls. -/
def requests (ops : List (CacheOp β)) : Nat :=
  ops.countP fun op => match op with
    | .issue .. => true
    | _ => false

/-- Only a request is given an id. -/
theorem nextId_apply (x : Custody β) (op : CacheOp β) :
    (x.apply op).served.cache.nextId ≤ x.served.cache.nextId + requests [op] := by
  cases op with
  | issue peer req =>
      have issued := Cache.issueOver_issued x.served.cache x.served.prefetcher peer x.served.below req
      have same := Cache.accessOver_same x.served.cache x.served.prefetcher peer x.served.below req
      change (x.served.issue peer req).1.cache.nextId ≤ x.served.cache.nextId + 1
      simp only [Served.issue]
      generalize x.served.cache.issueOver x.served.prefetcher peer x.served.below req = y at issued
      cases issued with
      | rejected full => exact Nat.le_succ _
      | merged mem read targets taken => exact Nat.le_refl _
      | accessed room done taken =>
          rw [done] at same
          exact Nat.succ_le_succ same.nextId.le
  | access peer req => exact (Cache.accessOver_same _ _ _ _ _).nextId.le
  | issuePrefetch byteAddr => exact (Cache.issuePrefetch_same _ _ _).nextId.le
  | cacheFill blockAddr write => exact (Cache.fill_same _).nextId.le
  | coherenceInvalidate blockAddr => exact Cache.coherenceInvalidate_same.nextId.le
  | coherenceClean blockAddr => exact (Cache.coherenceMark_same _).nextId.le
  | coherenceSetDirty blockAddr => exact (Cache.coherenceMark_same _).nextId.le
  | complete id => exact Nat.le_refl _
  | tick => exact Nat.le_refl _
  | markReady id => exact Nat.le_refl _
  | below next => exact Nat.le_refl _

theorem nextId_attempt (x : Custody β) (ops : List (CacheOp β)) :
    ((machine β).attempt x ops).served.cache.nextId ≤ x.served.cache.nextId + requests ops := by
  induction ops generalizing x with
  | nil => exact Nat.le_refl _
  | cons op rest ih =>
      have first := nextId_apply x op
      have later := ih (x.apply op)
      have both : requests ([op] ++ rest) = requests [op] + requests rest := List.countP_append
      rw [List.singleton_append] at both
      change ((machine β).attempt (x.apply op) rest).served.cache.nextId ≤ _
      omega

/-- Up to `2 ^ 64 - 2` requests the ids do not wrap: each one that is held is a word. -/
theorem ids_fit {cfg : Config} {prefetcher : Option Prefetcher} {below : β.State} {ops : List (CacheOp β)}
    (few : requests ops < 2 ^ 64 - 1) :
    let x := (machine β).attempt ⟨⟨Cache.build cfg, prefetcher, below⟩, []⟩ ops
    x.served.cache.nextId < 2 ^ 64 ∧ ∀ id ∈ x.held, id < 2 ^ 64 := by
  intro x
  have next : x.served.cache.nextId ≤ 1 + requests ops := nextId_attempt _ ops
  have kept : x.Kept := kept_run (Machine.reachable_attempt _ _)
  refine ⟨by omega, fun id mem => ?_⟩
  have given := kept.given id mem
  omega

/-- Where `issue` returns nothing, nothing has changed. -/
theorem issue_rejected {s : Served β.toBelow} {peer : Option Cache} {req : MemReq}
    (rejected : (s.issue peer req).2 = none) : (s.issue peer req).1 = s := by
  have issued := Cache.issueOver_issued s.cache s.prefetcher peer s.below req
  simp only [Served.issue] at rejected ⊢
  generalize s.cache.issueOver s.prefetcher peer s.below req = y at issued rejected
  cases issued with
  | rejected full => rfl
  | merged mem read targets taken => cases rejected
  | accessed room done taken => cases rejected

/-- In every run the slots in use are for different blocks, the ids that were returned and not
    completed are held once, and no others are; completing one leaves what the others see, and
    a request that is turned away leaves everything. -/
theorem ownership {cfg : Config} {prefetcher : Option Prefetcher} {below : β.State}
    (run : (machine β).Reachable ⟨⟨Cache.build cfg, prefetcher, below⟩, []⟩ x) :
    (x.served.cache.mshr.table.Pairwise fun e e' =>
        e.valid = true → e'.valid = true → e.blockAddr ≠ e'.blockAddr) ∧
      (∀ id, x.served.cache.mshr.table.countP (·.holds id) = if id ∈ x.held then 1 else 0) ∧
      (∀ id other, other ≠ id → ((x.served.cache.complete id).peek other).map (·.card) =
        (x.served.cache.peek other).map (·.card)) ∧
      ∀ peer req, (x.served.issue peer req).2 = none → (x.served.issue peer req).1 = x.served := by
  have kept := kept_run run
  refine ⟨kept.owned.blocks, kept.owned.count kept.nodup, fun id other ne => ?_, fun peer req => ?_⟩
  · exact MSHR.find_release ne
  · exact issue_rejected

/-- A request that joined another, which was then completed. -/
def joined : Custody .memory :=
  (machine .memory).attempt ⟨Served.fresh {} (some .plusOne), []⟩
    [.issue none { addr := 64 }, .issue none { addr := 72 }, .tick, .complete 1]

theorem joined_reachable :
    (machine .memory).Reachable ⟨⟨Cache.build {}, some .plusOne, ({} : MainMemory)⟩, []⟩ joined :=
  Machine.Run.start.attempt_from (fun _ _ => trivial) _

theorem ownership_joined :
    joined.held = [2] ∧
      joined.served.cache.mshr.table.countP (·.holds 2) = if 2 ∈ joined.held then 1 else 0 :=
  ⟨by decide +kernel, (ownership joined_reachable).2.1 2⟩

end Custody

end Memory
