import MulticoreSim.Memory.Ownership
import MulticoreSim.Ooo.Desk

/-! # What a core's parts know of each other

The scheduling queue points into the reorder buffer, the units point into the
queue, and the load-store units keep ids of slots of the data cache. Each change
of the pipeline keeps the pointers in step, and a cache that others use beside
the core keeps the slots of the units.
-/

namespace Ooo

/-! ## Room -/

namespace Pipeline

variable {p p' : Pipeline}

/-- No queue is longer than its configuration allows. -/
structure Fits (cfg : OooConfig) (p : Pipeline) : Prop where
  same : p.cfg = cfg
  rob : p.rob.capacity = cfg.robEntries
  sq : p.sq.length ≤ cfg.schedqCapacity
  dispq : p.dispq.length ≤ cfg.dispqCapacity

theorem length_eraseByTag (sq : List SchedEntry) (t : Nat) :
    (eraseByTag (wakeDependents sq t) t).length ≤ sq.length := by
  have woken : (wakeDependents sq t).length = sq.length := List.length_map _
  exact woken ▸ List.eraseP_sublist.length_le

theorem length_markBusy (sq : List SchedEntry) (t : Nat) : (markBusy sq t).length = sq.length := by
  have tags := map_markBusy (g := fun s => s.destTag) (fun _ => rfl) sq t
  simpa using congrArg List.length tags

theorem Fits.step {cfg : OooConfig} (fits : p.Fits cfg) (step : Step p p') : p'.Fits cfg := by
  obtain ⟨same, rob, sq, dispq⟩ := fits
  cases step with
  | retire | flush | call => exact ⟨same, rob, sq, dispq⟩
  | writeback => exact ⟨same, rob, Nat.le_trans (length_eraseByTag _ _) sq, dispq⟩
  | fire => exact ⟨same, rob, (length_markBusy _ _).trans_le sq, dispq⟩
  | dispatch next schedqRoom robRoom =>
      rw [same] at schedqRoom
      rw [next, List.length_cons] at dispq
      refine ⟨same, rob, ?_, Nat.le_of_succ_le dispq⟩
      rw [List.length_append, List.length_singleton]
      exact schedqRoom
  | fetch room =>
      rw [same] at room
      refine ⟨same, rob, sq, ?_⟩
      rw [List.length_append, List.length_singleton]
      exact room

/-- The units point to every busy entry once, and to nothing else. -/
theorem Held.count (held : p.Held) (nodup : (p.sq.map (·.destTag)).Nodup) {e : SchedEntry}
    (mem : e ∈ p.sq) : p.pointers.count e.destTag = if e.busy then 1 else 0 := by
  have busyNodup : ((p.sq.filter (·.busy)).map (·.destTag)).Nodup :=
    nodup.sublist (List.filter_sublist.map _)
  rw [held, Multiset.coe_count]
  split
  · next busy =>
      apply List.count_eq_one_of_mem busyNodup
      exact List.mem_map_of_mem (List.mem_filter.mpr ⟨mem, busy⟩)
  · next idle =>
      apply List.count_eq_zero.mpr
      intro again
      obtain ⟨e', mem', same⟩ := List.mem_map.mp again
      rw [unique_tag nodup (List.mem_of_mem_filter mem') mem same] at mem'
      exact idle (List.mem_filter.mp mem').2

theorem Held.points (held : p.Held) {t : Nat} (mem : t ∈ p.pointers) :
    ∃ e ∈ p.sq, e.destTag = t ∧ e.busy = true := by
  rw [held, Multiset.mem_coe] at mem
  obtain ⟨e, mem, tag⟩ := List.mem_map.mp mem
  obtain ⟨mem, busy⟩ := List.mem_filter.mp mem
  exact ⟨e, mem, tag, busy⟩

end Pipeline

/-! ## A core over its data cache -/

/-- A data cache over `β`. -/
def DataCache.served (β : Memory.Beneath) : DataCache where
  State := Memory.Served β.toBelow
  full l1d := l1d.cache.mshr.full
  ready l1d id := (l1d.cache.peek id).any (·.ready)
  issue l1d req := ((l1d.issue none req).2, (l1d.issue none req).1)
  complete l1d id := l1d.apply (.complete id)
  tick l1d := l1d.apply .tick

/-- The surroundings of a core whose data cache is one over `β`. -/
abbrev Front.over (F : Front) (β : Memory.Beneath) : Surroundings := F.with (.served β)

/-- The ids that the busy load-store units keep. -/
def requests (lsu : List (Option LsuUnit)) : Multiset Nat :=
  (lsu.map fun u => u.elim 0 fun u => {u.mshrId}).sum

theorem mem_requests {lsu : List (Option LsuUnit)} {id : Nat} :
    id ∈ requests lsu ↔ ∃ u, some u ∈ lsu ∧ u.mshrId = id := by
  constructor
  · intro mem
    induction lsu with
    | nil => exact absurd mem (Multiset.notMem_zero id)
    | cons x rest ih =>
        rw [requests, List.map_cons, List.sum_cons, Multiset.mem_add] at mem
        rcases mem with here | later
        · cases x with
          | none => exact absurd here (Multiset.notMem_zero id)
          | some u => exact ⟨u, List.mem_cons_self, (Multiset.mem_singleton.mp here).symm⟩
        · obtain ⟨u, mem, same⟩ := ih later
          exact ⟨u, List.mem_cons_of_mem _ mem, same⟩
  · rintro ⟨u, mem, rfl⟩
    exact Core.mem_sum_map mem (Multiset.mem_singleton_self _)

/-- A free unit takes an id. -/
theorem requests_place {lsu : List (Option LsuUnit)} (free : lsu.any (·.isNone) = true) (u : LsuUnit) :
    requests (Memory.modifyFirst (·.isNone) (fun _ => some u) lsu) = {u.mshrId} + requests lsu := by
  apply sum_modifyFirst (fun u : Option LsuUnit => u.elim 0 fun u => {u.mshrId}) u.mshrId free
  simp

/-- A unit is done with its id. -/
theorem requests_clear {lsu : List (Option LsuUnit)} {unit : Nat} {u : LsuUnit}
    (here : lsu[unit]? = some (some u)) : requests lsu = {u.mshrId} + requests (lsu.set unit none) :=
  sum_set (fun u : Option LsuUnit => u.elim 0 fun u => {u.mshrId}) u.mshrId here (by simp)

theorem requests_idle {lsu : List (Option LsuUnit)} (idle : ∀ u, some u ∉ lsu) : requests lsu = 0 := by
  rw [Multiset.eq_zero_iff_forall_notMem]
  intro id mem
  obtain ⟨u, held, -⟩ := mem_requests.mp mem
  exact idle u held

/-- Each unit keeps an id that the cache returned and that was not completed. -/
def Backed {β : Memory.Beneath} (l1d : Memory.Served β.toBelow) (lsu : List (Option LsuUnit)) : Prop :=
  ∃ held, (⟨l1d, held⟩ : Memory.Custody β).Kept ∧ requests lsu ≤ held

namespace Backed

variable {β : Memory.Beneath} {l1d : Memory.Served β.toBelow} {lsu : List (Option LsuUnit)}

theorem start (cfg : Memory.Config) (prefetcher : Option Memory.Prefetcher) (below : β.State) (n : Nat) :
    Backed (β := β) ⟨Memory.Cache.build cfg, prefetcher, below⟩ (List.replicate n none) := by
  have kept : (⟨⟨Memory.Cache.build cfg, prefetcher, below⟩, []⟩ : Memory.Custody β).Kept :=
    Memory.Custody.kept_run .start
  refine ⟨[], kept, ?_⟩
  rw [requests_idle fun u mem => by cases List.eq_of_mem_replicate mem]
  exact Multiset.zero_le _

/-- A call that completes no id of a unit. -/
theorem apply (backed : Backed l1d lsu) (op : Memory.CacheOp β)
    (own : ∀ u, some u ∈ lsu → op ≠ .complete u.mshrId) : Backed (l1d.apply op) lsu := by
  obtain ⟨held, kept, has⟩ := backed
  have after := Memory.Custody.kept_apply kept op
  cases op with
  | issue peer req =>
      have more : held.Sublist ((l1d.issue peer req).2.toList ++ held) := List.sublist_append_right ..
      exact ⟨_, after, has.trans (Multiset.coe_le.mpr more.subperm)⟩
  | complete id =>
      have absent : id ∉ requests lsu := by
        intro mem
        obtain ⟨u, busy, rfl⟩ := mem_requests.mp mem
        exact own u busy rfl
      refine ⟨_, after, ?_⟩
      have fewer := Multiset.erase_le_erase id has
      rwa [Multiset.erase_of_notMem absent, Multiset.coe_erase] at fewer
  | access | issuePrefetch | cacheFill | coherenceInvalidate | coherenceClean | coherenceSetDirty | tick
  | markReady | below => exact ⟨held, after, has⟩

/-- A free unit takes the id of a request that was accepted. -/
theorem issue (backed : Backed l1d lsu) (free : lsu.any (·.isNone) = true) (req : Memory.MemReq)
    {u : LsuUnit} (issued : (l1d.issue none req).2 = some u.mshrId) :
    Backed (l1d.issue none req).1 (Memory.modifyFirst (·.isNone) (fun _ => some u) lsu) := by
  obtain ⟨held, kept, has⟩ := backed
  have after : (⟨(l1d.issue none req).1, (l1d.issue none req).2.toList ++ held⟩ :
      Memory.Custody β).Kept := Memory.Custody.kept_apply kept (.issue none req)
  refine ⟨_, after, ?_⟩
  rw [requests_place free, issued]
  exact Multiset.cons_le_cons u.mshrId has

/-- A unit completes its own id and is free again. -/
theorem complete (backed : Backed l1d lsu) {unit : Nat} {u : LsuUnit} (here : lsu[unit]? = some (some u)) :
    Backed (l1d.apply (.complete u.mshrId)) (lsu.set unit none) := by
  obtain ⟨held, kept, has⟩ := backed
  have after := Memory.Custody.kept_apply kept (.complete u.mshrId)
  refine ⟨_, after, ?_⟩
  have fewer := Multiset.erase_le_erase u.mshrId has
  rwa [requests_clear here, Multiset.singleton_add, Multiset.erase_cons_head, Multiset.coe_erase] at fewer

theorem nodup (backed : Backed l1d lsu) : (requests lsu).Nodup := by
  obtain ⟨held, kept, has⟩ := backed
  exact Multiset.nodup_of_le has (Multiset.coe_nodup.mpr kept.nodup)

/-- The slot of a unit's id is in use, and no other slot has the id. -/
theorem live (backed : Backed l1d lsu) {u : LsuUnit} (mem : some u ∈ lsu) :
    (∃ slot, l1d.cache.peek u.mshrId = some slot ∧ slot.valid = true) ∧
      l1d.cache.mshr.table.countP (·.holds u.mshrId) = 1 := by
  obtain ⟨held, kept, has⟩ := backed
  have inside : u.mshrId ∈ held :=
    Multiset.mem_coe.mp (Multiset.mem_of_le has (mem_requests.mpr ⟨u, mem, rfl⟩))
  have once := kept.owned.count kept.nodup u.mshrId
  rw [if_pos inside] at once
  refine ⟨?_, once⟩
  have found : ∃ slot ∈ l1d.cache.mshr.table, slot.holds u.mshrId = true := by
    apply List.countP_pos_iff.mp
    rw [once]
    exact Nat.one_pos
  obtain ⟨slot, at_slot⟩ := Option.isSome_iff_exists.mp (List.find?_isSome.mpr found)
  refine ⟨slot, at_slot, ?_⟩
  have holds := List.find?_some at_slot
  rw [Memory.MSHREntry.holds, Bool.and_eq_true] at holds
  exact holds.1

end Backed

/-! ## Cycles -/

/-- The calls of a core keep the ids of its units. -/
theorem keeps_backed {β : Memory.Beneath} : (DataCache.served β).Keeps (fun _ _ => True) Backed where
  refused backed _ _ := Backed.apply backed (.issue none _) fun _ _ => nofun
  issue backed _ free issued := Backed.issue backed free _ issued
  complete backed here _ := Backed.complete backed here
  tick backed := Backed.apply backed .tick fun _ _ => nofun

namespace Core

variable {F : Front} {β : Memory.Beneath}

/-- Between the cycles of a core others may use its data cache, but complete no id of
    a unit, and the rest of its surroundings changes as it likes. -/
inductive Aside (c : Core (F.over β)) : Action (F.over β) → Prop where
  | tick : Aside c .tick
  | cache (op : Memory.CacheOp β) (own : ∀ u, some u ∈ c.units.lsu → op ≠ .complete u.mshrId) :
      Aside c (.outside (Prod.fst c.outside, c.desk.1.apply op))
  | front (state : F.State) : Aside c (.outside (state, c.desk.1))

end Core

/-! ## Runs -/

section

variable {S : Surroundings} {cfg : OooConfig} {outside : S.State} {tid : Nat} {c : Core S}

theorem fits_run (run : (machine S).Reachable (Core.make cfg outside tid) c) : c.pipe.Fits cfg := by
  apply Core.pipe_invariant (I := Pipeline.Fits cfg) _ (fun _ _ fits step => fits.step step) run
  exact ⟨rfl, rfl, Nat.zero_le _, Nat.zero_le _⟩

end

variable {F : Front} {β : Memory.Beneath} {cfg : OooConfig} {tid : Nat} {front : F.State}
  {l1 : Memory.Config} {prefetcher : Option Memory.Prefetcher} {below : β.State} {c : Core (F.over β)}

/-- A new core over an empty data cache. -/
def Core.over (cfg : OooConfig) (front : F.State) (l1 : Memory.Config)
    (prefetcher : Option Memory.Prefetcher) (below : β.State) (tid : Nat) : Core (F.over β) :=
  Core.make cfg (front, ⟨Memory.Cache.build l1, prefetcher, below⟩) tid

theorem backed_run
    (run : (machine (F.over β)).Run Core.Aside (.over cfg front l1 prefetcher below tid) c) :
    Backed c.desk.1 c.desk.2 := by
  have turns := Core.turns_calls (F := F) (keeps_backed (β := β))
  apply run.invariant (I := fun c => Backed c.desk.1 c.desk.2)
  · exact Backed.start l1 prefetcher below cfg.lsuFus
  · intro c action c' backed aside stepped
    cases aside with
    | tick =>
        simp only [machine, Except.map] at stepped
        split at stepped
        · cases stepped
        · next ticked =>
            cases stepped
            exact turns.tick backed ticked
    | cache op own =>
        cases stepped
        exact backed.apply op own
    | front state =>
        cases stepped
        exact backed

/-- In every run of a core over its data cache: the reorder buffer holds what was
    dispatched and not retired, in order from its head; no queue is longer than it may
    be; an entry of the scheduling queue has its own buffer entry, which is not ready;
    the stages of the units point to each busy entry once and to nothing else; and the
    busy load-store units have ids of their own, each held by one slot of the cache. -/
theorem pipeline_linked
    (run : (machine (F.over β)).Run Core.Aside (.over cfg front l1 prefetcher below tid) c) :
    (c.rob.count ≤ cfg.robEntries ∧ c.rob.tail = (c.rob.head + c.rob.count) % cfg.robEntries ∧
        Log.dispatched c.log = Log.retired c.log ++ (List.range c.rob.count).map fun k =>
          (c.rob.slots ((c.rob.head + k) % cfg.robEntries)).key) ∧
      (c.sq.length ≤ cfg.schedqCapacity ∧ c.dispq.length ≤ cfg.dispqCapacity) ∧
      (∀ e ∈ c.sq, ∃ k < c.rob.count, (c.rob.head + k) % cfg.robEntries = e.robIdx ∧
        (c.rob.slots e.robIdx).ready = false ∧
        (c.rob.slots e.robIdx).inst.dynCount = e.inst.dynCount ∧
        (c.rob.slots e.robIdx).destTag = e.destTag) ∧
      ((c.sq.map (·.destTag)).Nodup ∧
        (∀ e ∈ c.sq, c.units.tags.count e.destTag = if e.busy then 1 else 0) ∧
        ∀ t ∈ c.units.tags, ∃ e ∈ c.sq, e.destTag = t ∧ e.busy = true) ∧
      (requests c.units.lsu).Nodup ∧
      ∀ u, some u ∈ c.units.lsu →
        (∃ slot, c.desk.1.cache.peek u.mshrId = some slot ∧ slot.valid = true) ∧
          c.desk.1.cache.mshr.table.countP (·.holds u.mshrId) = 1 := by
  have steady := steady_run run.reachable
  have fits := fits_run run.reachable
  have backed := backed_run run
  have order := steady.sound.order
  have capacity : c.rob.capacity = cfg.robEntries := fits.rob
  have slots : ∀ k, c.rob.slotAt k = (c.rob.head + k) % cfg.robEntries := by
    intro k
    rw [← capacity]
    rfl
  refine ⟨⟨capacity ▸ order.buffer.fits, (slots _).symm ▸ order.buffer.tail, ?_⟩, ⟨fits.sq, fits.dispq⟩,
    fun e mem => ?_, ⟨steady.nodup, fun e mem => steady.held.count steady.nodup mem,
      fun t mem => steady.held.points mem⟩, backed.nodup, fun u mem => backed.live mem⟩
  · have dispatched := order.dispatched
    simp only [CircularBuffer.toList, List.map_map] at dispatched
    simp only [← slots]
    exact dispatched
  · obtain ⟨k, entry, at_k, key, unready, slot⟩ := steady.sound.linked.slots e mem
    rw [CircularBuffer.getElem?_toList] at at_k
    split at at_k
    · next inside =>
        change c.rob.slotAt k = e.robIdx at slot
        change some (c.rob.slots (c.rob.slotAt k)) = some entry at at_k
        rw [slot] at at_k
        cases at_k
        have key : (c.rob.slots e.robIdx).key = e.key := key
        refine ⟨k, inside, (slots k).symm.trans slot, unready, ?_, ?_⟩
        · exact congrArg (fun key : Inst × Nat => key.1.dynCount) key
        · exact congrArg Prod.snd key
    · cases at_k

/-- A front that delivers the records of a list and predicts every branch taken. -/
def Front.listed : Front where
  State := List Record
  next
    | [] => .ok (none, [])
    | record :: rest => .ok (some record, rest)
  blocked _ := false
  notifyRetire records _ _ _ := .ok records
  predict records _ := (true, records)
  update records _ _ := records

/-- A core about to load twice from one block. -/
def twoLoads : Core (Front.listed.over .memory) :=
  .over {} ([{ ip := 4, sourceMemory := [64] }, { ip := 8, sourceMemory := [72] }] : List Record) {} none
    ({} : Memory.MainMemory) 0

/-- The second load has joined the slot of the first, which is then marked ready. -/
def joinedLoads : Core (Front.listed.over .memory) :=
  let c := (machine _).attempt twoLoads (List.replicate 3 .tick)
  { c with outside := (Prod.fst c.outside, c.desk.1.apply (.markReady 1)) }

theorem joinedLoads_run : (machine (Front.listed.over .memory)).Run Core.Aside twoLoads joinedLoads := by
  have ticks : ∀ a ∈ List.replicate 3 Action.tick, ∀ s : Core (Front.listed.over .memory), s.Aside a := by
    intro a mem s
    rw [List.eq_of_mem_replicate mem]
    exact .tick
  exact (Machine.Run.start.attempt_all ticks).step (.cache (.markReady 1) nofun) rfl

theorem pipeline_linked_joined : ∃ u, some u ∈ joinedLoads.units.lsu ∧ u.mshrId = 2 ∧
    joinedLoads.desk.1.cache.mshr.table.countP (·.holds 2) = 1 := by
  have held : some { isLoad := true, mshrId := 2, sched := 258 } ∈ joinedLoads.units.lsu := by
    decide +kernel
  exact ⟨_, held, rfl, ((pipeline_linked joinedLoads_run).2.2.2.2.2 _ held).2⟩

end Ooo
