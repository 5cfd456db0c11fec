import MulticoreSim.Library.Loops
import MulticoreSim.Memory.Latency
import MulticoreSim.Ooo.Liveness

/-! # A core finishes its trace

A busy unit has its result within the latency of the data cache, and a core whose units
are idle works. So a core over its own hierarchy comes to the end of its trace, however
its branches are predicted, and a watchdog that waits for longer than the hierarchy takes
to answer never fires.
-/

namespace Ooo

/-! ## Fronts that replay a trace -/

/-- A reader that has so many records left and no gate, with any predictor. -/
structure Front.Replays (F : Front) (unread : F.State → Nat) : Prop where
  ends : ∀ s, unread s = 0 → ∃ s', F.next s = .ok (none, s') ∧ unread s' = 0 ∧ F.blocked s' = false
  delivers : ∀ s, unread s ≠ 0 → ∃ rec s', F.next s = .ok (some rec, s') ∧ unread s = unread s' + 1
  notifyRetire : ∀ s tid token ip, ∃ s', F.notifyRetire s tid token ip = .ok s' ∧ unread s' = unread s
  predict : ∀ s b, unread (F.predict s b).2 = unread s
  update : ∀ s b prediction, unread (F.update s b prediction) = unread s

section

variable {F : Front} {β : Memory.Beneath} {unread : F.State → Nat}

theorem Front.Replays.willing (replays : F.Replays unread) : (F.over β).Willing where
  next o := by
    by_cases none : unread o.1 = 0
    · obtain ⟨s', delivered, -⟩ := replays.ends o.1 none
      exact ⟨Option.none, (s', o.2), by simp [Front.over, Front.with, delivered, Except.map]⟩
    · obtain ⟨rec, s', delivered, -⟩ := replays.delivers o.1 none
      exact ⟨some rec, (s', o.2), by simp [Front.over, Front.with, delivered, Except.map]⟩
  notifyRetire o tid token ip := by
    obtain ⟨s', told, -⟩ := replays.notifyRetire o.1 tid token ip
    exact ⟨(s', o.2), by simp [Front.over, Front.with, told, Except.map]⟩
  l1Issue o req := ⟨_, _, rfl⟩

/-- What the reader has delivered, by what it had left. -/
theorem Front.Replays.next (replays : F.Replays unread) {o o' : (F.over β).State} {rec : Option Record}
    (delivered : (F.over β).next o = .ok (rec, o')) : unread o.1 = unread o'.1 + rec.toList.length ∧
      (rec = none → unread o'.1 = 0 ∧ F.blocked o'.1 = false) := by
  by_cases none : unread o.1 = 0
  · obtain ⟨s', ended, left, free⟩ := replays.ends o.1 none
    simp only [Front.over, Front.with, ended, Except.map] at delivered
    cases delivered
    exact ⟨none.trans left.symm, fun _ => ⟨left, free⟩⟩
  · obtain ⟨r, s', read, left⟩ := replays.delivers o.1 none
    simp only [Front.over, Front.with, read, Except.map] at delivered
    cases delivered
    exact ⟨left, fun ended => by cases ended⟩

theorem Front.Replays.told (replays : F.Replays unread) {o o' : (F.over β).State} {tid : Nat}
    {token : SyncToken} {ip : Nat} (told : (F.over β).notifyRetire o tid token ip = .ok o') :
    unread o'.1 = unread o.1 := by
  obtain ⟨s', rang, left⟩ := replays.notifyRetire o.1 tid token ip
  simp only [Front.over, Front.with, rang, Except.map] at told
  cases told
  exact left

end

/-! ## A data cache that one core uses -/

/-- The requests of the units are all that the cache holds, it has slots, and they are due
    within its latency. -/
structure Sole {β : Memory.Beneath} (P : β.State → Prop) (n bound : Nat) (l1d : Memory.Served β.toBelow)
    (lsu : List (Option LsuUnit)) : Prop where
  owned : ∃ held : List Nat, (⟨l1d, held⟩ : Memory.Custody β).Kept ∧ requests lsu = (held : Multiset Nat)
  slots : l1d.cache.mshr.table.length ≠ 0
  timely : l1d.Timely P n bound

namespace Sole

variable {β : Memory.Beneath} {P : β.State → Prop} {n bound : Nat} {l1d : Memory.Served β.toBelow}
  {lsu : List (Option LsuUnit)}

theorem start {cfg : Memory.Config} (prefetcher : Option Memory.Prefetcher) {below : β.State}
    (entries : cfg.mshrEntries ≠ 0) (sink : cfg.coherenceSink = false)
    (total : cfg.hitLatency + n ≤ bound) (fine : P below) (units : Nat) :
    Sole P n bound ⟨Memory.Cache.build cfg, prefetcher, below⟩ (List.replicate units none) where
  owned := ⟨[], Memory.Custody.kept_run .start, by simp [requests]⟩
  slots := by
    change (List.replicate cfg.mshrEntries _).length ≠ 0
    rw [List.length_replicate]
    exact entries
  timely := .build cfg prefetcher sink total fine

theorem tick (sole : Sole P n bound l1d lsu) : Sole P n bound (l1d.apply .tick) lsu := by
  obtain ⟨⟨held, kept, all⟩, slots, timely⟩ := sole
  refine ⟨⟨held, Memory.Custody.kept_apply kept .tick, all⟩, ?_, timely.tick⟩
  change (l1d.cache.mshr.table.map _).length ≠ 0
  rw [List.length_map]
  exact slots

theorem complete (sole : Sole P n bound l1d lsu) {unit : Nat} {u : LsuUnit}
    (here : lsu[unit]? = some (some u)) :
    Sole P n bound (l1d.apply (.complete u.mshrId)) (lsu.set unit none) := by
  obtain ⟨⟨held, kept, all⟩, slots, timely⟩ := sole
  refine ⟨⟨_, Memory.Custody.kept_apply kept (.complete u.mshrId), ?_⟩, ?_, timely.complete _⟩
  · rw [← Multiset.coe_erase, ← all, requests_clear here, Multiset.singleton_add, Multiset.erase_cons_head]
  · change (Memory.modifyFirst _ _ l1d.cache.mshr.table).length ≠ 0
    rw [Memory.length_modifyFirst]
    exact slots

theorem issue (sole : Sole P n bound l1d lsu) (prompt : β.Prompt P n)
    (short : bound < Memory.coherenceSuspendedLatency) (free : lsu.any (·.isNone) = true)
    (req : Memory.MemReq) {u : LsuUnit} (issued : (l1d.issue none req).2 = some u.mshrId) :
    Sole P n bound (l1d.issue none req).1 (Memory.modifyFirst (·.isNone) (fun _ => some u) lsu) := by
  obtain ⟨⟨held, kept, all⟩, slots, timely⟩ := sole
  have after : (⟨(l1d.issue none req).1, (l1d.issue none req).2.toList ++ held⟩ :
      Memory.Custody β).Kept := Memory.Custody.kept_apply kept (.issue none req)
  refine ⟨⟨_, after, ?_⟩, ?_, timely.issue prompt short none req⟩
  · rw [requests_place free, issued, all]
    rfl
  · have done := Memory.Cache.issueOver_issued l1d.cache l1d.prefetcher none l1d.below req
    simp only [Memory.Served.issue]
    generalize l1d.cache.issueOver l1d.prefetcher none l1d.below req = y at done
    cases done with
    | rejected full => exact slots
    | merged mem read targets taken => exact (Memory.MSHR.length_allocate taken).trans_ne slots
    | accessed room done taken => exact (Memory.MSHR.length_allocate taken).trans_ne slots

/-- While no unit waits no slot is in use. -/
theorem room (sole : Sole P n bound l1d lsu) (idle : ∀ u ∈ lsu, u = none) :
    l1d.cache.mshr.full = false := by
  obtain ⟨⟨held, kept, all⟩, slots, -⟩ := sole
  have none : requests lsu = 0 := requests_idle fun u mem => by cases idle _ mem
  have held : held = [] := Multiset.coe_eq_zero held |>.mp (all.symm.trans none)
  subst held
  obtain ⟨e, mem⟩ := List.exists_mem_of_ne_nil _ (mt List.length_eq_zero_iff.mpr slots)
  rw [Memory.MSHR.full, List.all_eq_false]
  exact ⟨e, mem, by simp [kept.owned.free mem]⟩

theorem takes (full : l1d.cache.mshr.full = false) (req : Memory.MemReq) :
    ∃ id, (l1d.issue none req).2 = some id := by
  have done := Memory.Cache.issueOver_issued l1d.cache l1d.prefetcher none l1d.below req
  simp only [Memory.Served.issue]
  generalize l1d.cache.issueOver l1d.prefetcher none l1d.below req = y at done
  cases done with
  | rejected full' => cases full.symm.trans full'
  | merged | accessed => exact ⟨_, rfl⟩

/-- The request of a unit is ready within the latency of the cache. -/
theorem within (sole : Sole P n bound l1d lsu) {u : LsuUnit} (mem : some u ∈ lsu) {k : Nat}
    (some : k ≠ 0) (le : bound ≤ k) : l1d.ReadyWithin k u.mshrId := by
  obtain ⟨held, kept, all⟩ := sole.owned
  have backed : Backed l1d lsu := ⟨held, kept, all.le⟩
  obtain ⟨⟨slot, found, -⟩, -⟩ := backed.live mem
  exact sole.timely.within found some le

/-- The next request gets another id. -/
theorem given (sole : Sole P n bound l1d lsu) {u : LsuUnit} (mem : some u ∈ lsu) :
    u.mshrId ≠ l1d.cache.nextId := by
  obtain ⟨held, kept, all⟩ := sole.owned
  have inside : u.mshrId ∈ (held : Multiset Nat) := all ▸ mem_requests.mpr ⟨u, mem, rfl⟩
  exact Nat.ne_of_lt (kept.given _ inside)

end Sole

namespace Core

/-! ## What every turn keeps -/

/-- The units are those of the configuration. -/
structure Shaped (cfg : OooConfig) (units : Units) : Prop where
  alu : units.alu.length = cfg.aluFus
  mul : units.mul.length = cfg.mulFus
  lsu : units.lsu.length = cfg.lsuFus

theorem Shaped.staffed {cfg : OooConfig} {units : Units} (shaped : Shaped cfg units)
    (usable : cfg.Usable) : Staffed units where
  alu empty := usable.aluFus (shaped.alu.symm.trans (congrArg List.length empty))
  mul empty := usable.mulFus (shaped.mul.symm.trans (congrArg List.length empty))
  lsu empty := usable.lsuFus (shaped.lsu.symm.trans (congrArg List.length empty))

variable {S : Surroundings}

theorem retireStep_units {c c' : Core S} {mispred : Bool} (ran : c.retireStep = .ok (mispred, c')) :
    c'.units = c.units := (retireStep_same ran).2

theorem writeback_units {c c' : Core S} {tag : Nat} (ran : c.writeback tag = .ok c') :
    c'.units = c.units := by
  obtain ⟨sched, -, rfl⟩ := writeback_eq ran
  rfl

theorem turns_shaped (cfg : OooConfig) : Turns fun c : Core S => Shaped cfg c.units where
  retire shaped _ _ ran := by
    rw [retireStep_units ran]
    exact shaped
  completes := by
    refine ⟨?_, ?_, ?_, ?_⟩
    · intro c c' unit tag shaped _ wrote
      rw [← writeback_units wrote] at shaped
      exact ⟨List.length_set.trans shaped.alu, shaped.mul, shaped.lsu⟩
    · intro c c' unit tag stage1 stage2 shaped _ wrote
      rw [← writeback_units wrote] at shaped
      exact ⟨shaped.alu, List.length_set.trans shaped.mul, shaped.lsu⟩
    · intro c shaped _
      exact ⟨shaped.alu, (List.length_map _).trans shaped.mul, shaped.lsu⟩
    · intro c c' unit u shaped _ _ wrote
      rw [← writeback_units wrote] at shaped
      exact ⟨shaped.alu, shaped.mul, List.length_set.trans shaped.lsu⟩
  fires := by
    refine ⟨?_, ?_, ?_, ?_⟩
    · intro c oldest shaped _ _ _ _
      exact ⟨(Memory.length_modifyFirst _).trans shaped.alu, shaped.mul, shaped.lsu⟩
    · intro c oldest shaped _ _ _ _
      exact ⟨shaped.alu, (Memory.length_modifyFirst _).trans shaped.mul, shaped.lsu⟩
    · intro c oldest outside shaped _ _
      exact shaped
    · intro c oldest mshrId outside shaped _ _ _
      exact ⟨shaped.alu, shaped.mul, (Memory.length_modifyFirst _).trans shaped.lsu⟩
  dispatch shaped _ _ := shaped
  delivers :=
    { starved := fun shaped _ => shaped
      ended := fun shaped _ _ => shaped
      delivered := fun shaped _ _ _ => shaped }
  ticks shaped := shaped
  counts _ _ shaped _ := shaped

section

variable {F : Front} {β : Memory.Beneath} {unread : F.State → Nat}

/-- Every record was delivered or is left, and the end was seen where none is. -/
structure Supplied (unread : F.State → Nat) (records : Nat) (c : Core (F.over β)) : Prop where
  all : unread (Prod.fst c.outside) + (Log.fetched c.log).length = records
  eof : c.eof = true → unread (Prod.fst c.outside) = 0

theorem Supplied.same {records : Nat} {c c' : Core (F.over β)} (supplied : Supplied unread records c)
    (left : unread (Prod.fst c'.outside) = unread (Prod.fst c.outside))
    (fetched : Log.fetched c'.log = Log.fetched c.log) (eof : c'.eof = c.eof) :
    Supplied unread records c' := by
  obtain ⟨all, ended⟩ := supplied
  constructor
  · rw [left, fetched]
    exact all
  · rw [left, eof]
    exact ended

theorem issue_front {o o' : (F.over β).State} {req : Memory.MemReq} {id : Option Nat}
    (issued : (F.over β).l1Issue o req = .ok (id, o')) : Prod.fst o' = Prod.fst o :=
  congrArg (fun r : Option Nat × (F.over β).State => Prod.fst r.2) (Except.ok.inj issued).symm

theorem turns_supplied (replays : F.Replays unread) (records : Nat) :
    Turns fun c : Core (F.over β) => Supplied unread records c where
  retire := by
    intro c c' mispred supplied held ready ran
    have trained : unread (Prod.fst (c.trainPredictor c.rob.headEntry.inst).outside) =
        unread (Prod.fst c.outside) := by
      unfold trainPredictor
      split
      · exact replays.update _ _ _
      · rfl
    have pipe := c.trainPredictor_pipe c.rob.headEntry.inst
    have log : (c.trainPredictor c.rob.headEntry.inst).log = c.log := congrArg Pipeline.log pipe
    have eof : (c.trainPredictor c.rob.headEntry.inst).eof = c.eof := by
      unfold trainPredictor
      split <;> rfl
    have fetched : ∀ inst tag, Log.fetched (c.log ++ [.retired inst tag]) = Log.fetched c.log := by
      intro inst tag
      simp
    simp only [retireStep] at ran
    split at ran
    · cases ran
      refine supplied.same trained ?_ eof
      rw [retireHead, log]
      exact fetched _ _
    · split at ran
      · cases ran
        refine supplied.same trained ?_ eof
        rw [retireHead, log]
        exact fetched _ _
      · split at ran
        · cases ran
        · next outside told =>
            cases ran
            refine supplied.same ((replays.told told).trans trained) ?_ eof
            rw [retireHead]
            simp only [log]
            exact fetched _ _
  completes := by
    refine ⟨?_, ?_, ?_, ?_⟩
    · intro c c' unit tag supplied _ wrote
      obtain ⟨sched, -, rfl⟩ := writeback_eq wrote
      exact supplied.same rfl (by simp) rfl
    · intro c c' unit tag stage1 stage2 supplied _ wrote
      obtain ⟨sched, -, rfl⟩ := writeback_eq wrote
      exact supplied.same rfl (by simp) rfl
    · intro c supplied _
      exact supplied.same rfl rfl rfl
    · intro c c' unit u supplied _ _ wrote
      obtain ⟨sched, -, rfl⟩ := writeback_eq wrote
      exact supplied.same rfl (by simp) rfl
  fires := by
    refine ⟨?_, ?_, ?_, ?_⟩
    · intro c oldest supplied _ _ _ _
      exact supplied.same rfl (by simp) rfl
    · intro c oldest supplied _ _ _ _
      exact supplied.same rfl (by simp) rfl
    · intro c oldest outside supplied _ issued
      exact supplied.same (congrArg unread (issue_front issued)) (by simp) rfl
    · intro c oldest mshrId outside supplied _ _ issued
      refine supplied.same (congrArg unread (issue_front issued)) ?_ rfl
      simp only [Log.fetched_snoc, List.append_nil]
  dispatch supplied _ _ := supplied.same rfl (by simp [dispatchOne]) rfl
  delivers := by
    refine ⟨?_, ?_, ?_⟩
    · intro c outside supplied starved
      obtain ⟨left, -⟩ := replays.next starved
      exact supplied.same left.symm rfl rfl
    · intro c outside supplied starved _
      obtain ⟨left, ended⟩ := replays.next starved
      obtain ⟨all, -⟩ := supplied
      exact ⟨(congrArg (· + _) left.symm).trans all, fun _ => (ended rfl).1⟩
    · intro c rec outside supplied _ _ delivered
      obtain ⟨left, -⟩ := replays.next delivered
      obtain ⟨all, eof⟩ := supplied
      have asked : unread (Prod.fst (c.fetchOne rec outside).outside) = unread (Prod.fst outside) := by
        simp only [fetchOne, predicted]
        split
        · exact replays.predict _ _
        · rfl
      have some : [rec].length = 1 := rfl
      rw [Option.toList_some, some] at left
      constructor
      · have fetched : (Log.fetched (c.fetchOne rec outside).log).length = (Log.fetched c.log).length + 1 := by
          simp [fetchOne]
        rw [asked, fetched]
        omega
      · intro ended
        have none := eof ended
        omega
  ticks supplied := supplied.same rfl rfl rfl
  counts _ _ supplied _ := supplied.same rfl rfl rfl

end

section

variable {F : Front} {β : Memory.Beneath} {P : β.State → Prop} {n bound : Nat}

theorem keeps_sole (prompt : β.Prompt P n) (short : bound < Memory.coherenceSuspendedLatency) :
    (DataCache.served β).Keeps (fun _ _ => True) (Sole P n bound) where
  refused := by
    intro l1d lsu req sole _ refused
    have same : (l1d.issue none req).1 = l1d := Memory.Custody.issue_rejected refused
    change Sole P n bound (l1d.issue none req).1 lsu
    rw [same]
    exact sole
  issue sole _ free issued := sole.issue prompt short free _ issued
  complete sole here _ := sole.complete here
  tick sole := sole.tick

theorem turns_sole (prompt : β.Prompt P n) (short : bound < Memory.coherenceSuspendedLatency) :
    Turns fun c : Core (F.over β) => Sole P n bound c.desk.1 c.desk.2 :=
  turns_calls (keeps_sole prompt short)

end

/-! ## Results that are near -/

end Core

/-- The multiplier has a result after at most `k` more cycles. -/
inductive MulUnit.Within (k : Nat) (u : MulUnit) : Prop where
  | stage3 (here : u.stage3 ≠ none)
  | stage2 (here : u.stage2 ≠ none) (left : 1 ≤ k)
  | stage1 (here : u.stage1 ≠ none) (left : 2 ≤ k)

theorem MulUnit.Within.filled {k : Nat} {u : MulUnit} (left : u.Within k) (tag : Nat) :
    MulUnit.Within k { u with stage1 := some tag } := by
  cases left with
  | stage3 here => exact .stage3 here
  | stage2 here left => exact .stage2 here left
  | stage1 _ left => exact .stage1 (Option.some_ne_none tag) left

namespace Core

section

variable {F : Front} {β : Memory.Beneath} {P : β.State → Prop} {n bound k : Nat} {c c' : Core (F.over β)}

/-- Some unit has a result after at most `k` more cycles. -/
inductive ResultWithin (k : Nat) (c : Core (F.over β)) : Prop where
  | alu {tag : Nat} (mem : some tag ∈ c.units.alu)
  | mul {u : MulUnit} (mem : u ∈ c.units.mul) (left : u.Within k)
  | lsu {u : LsuUnit} (mem : some u ∈ c.units.lsu) (left : c.desk.1.ReadyWithin k u.mshrId)

/-- A busy unit has its result after at most as many cycles as a multiplier has stages, or the
    cache needs. -/
theorem resultWithin_of_busy (sole : Sole P n bound c.desk.1 c.desk.2) (busy : ¬c.units.Idle)
    (stages : 2 ≤ k) (latency : bound ≤ k) : c.ResultWithin k := by
  by_contra never
  apply busy
  refine ⟨fun u mem => ?_, fun u mem => ?_, fun u mem => ?_⟩
  · cases u with
    | none => rfl
    | some tag => exact absurd (.alu mem) never
  · obtain ⟨stage1, stage2, stage3⟩ := u
    have empty1 : stage1 = none := by
      by_contra here
      exact never (.mul mem (.stage1 here stages))
    have empty2 : stage2 = none := by
      by_contra here
      exact never (.mul mem (.stage2 here (Nat.le_of_succ_le stages)))
    have empty3 : stage3 = none := by
      by_contra here
      exact never (.mul mem (.stage3 here))
    rw [empty1, empty2, empty3]
  · cases u with
    | none => rfl
    | some u => exact absurd (.lsu mem (sole.within mem (by omega) latency)) never

/-- A result that no unit has yet is near after exec, and stays so while entries are placed:
    one cycle nearer in a multiplier, and in the cache with the tick at the end. -/
inductive Coming (k : Nat) (c : Core (F.over β)) : Prop where
  | mul {u : MulUnit} (mem : u ∈ c.units.mul) (left : u.Within k)
  | lsu {u : LsuUnit} (mem : some u ∈ c.units.lsu) (left : c.desk.1.ReadyWithin (k + 1) u.mshrId)

theorem ResultWithin.coming (result : c.ResultWithin k) (silent : ¬c.Answers) :
    ∃ j < k, c.shiftMul.Coming j := by
  cases result with
  | alu mem => exact absurd (.alu mem) silent
  | @mul u mem left =>
      have shifted : { stage1 := none, stage2 := u.stage1, stage3 := u.stage2 } ∈ c.shiftMul.units.mul :=
        List.mem_map_of_mem mem
      cases left with
      | stage3 here => exact absurd (.mul mem here) silent
      | stage2 here left => exact ⟨0, left, .mul shifted (.stage3 here)⟩
      | stage1 here left => exact ⟨1, left, .mul shifted (.stage2 here (Nat.le_refl _))⟩
  | @lsu u mem left =>
      cases k with
      | zero => exact absurd (.lsu mem left.now) silent
      | succ k => exact ⟨k, Nat.lt_succ_self k, .lsu mem left⟩

theorem fires_coming (prompt : β.Prompt P n) (short : bound < Memory.coherenceSuspendedLatency) :
    Fires fun c : Core (F.over β) => Sole P n bound c.desk.1 c.desk.2 ∧ c.Coming k where
  alu inv queued canFire other isFree := by
    refine ⟨(turns_sole prompt short).fires.alu inv.1 queued canFire other isFree, ?_⟩
    cases inv.2 with
    | mul mem left => exact .mul mem left
    | lsu mem left => exact .lsu mem left
  mul inv queued canFire other isFree := by
    refine ⟨(turns_sole prompt short).fires.mul inv.1 queued canFire other isFree, ?_⟩
    cases inv.2 with
    | mul mem left =>
        rcases Memory.modifyFirst_moves mem with same | filled
        · exact .mul same left
        · exact .mul filled (left.filled _)
    | lsu mem left => exact .lsu mem left
  turnedAway inv picked issued := by
    refine ⟨(turns_sole prompt short).fires.turnedAway inv.1 picked issued, ?_⟩
    cases inv.2 with
    | mul mem left => exact .mul mem left
    | lsu mem left =>
        obtain ⟨refused, cache⟩ := issue_eq issued
        have same := cache.trans (Memory.Custody.issue_rejected refused)
        refine .lsu mem ?_
        change Memory.Served.ReadyWithin (Prod.snd _) _ _
        rw [same]
        exact left
  lsu inv picked isFree issued := by
    refine ⟨(turns_sole prompt short).fires.lsu inv.1 picked isFree issued, ?_⟩
    cases inv.2 with
    | mul mem left => exact .mul mem left
    | lsu mem left =>
        refine .lsu (Memory.modifyFirst_keeps mem rfl) ?_
        change Memory.Served.ReadyWithin (Prod.snd _) _ _
        rw [(issue_eq issued).2]
        exact left.issue (inv.1.given mem) none _

theorem watchdog_keeps (c : Core S) : c.watchdog.2.units = c.units ∧ c.watchdog.2.work = c.work ∧
    c.watchdog.2.outside = c.outside :=
  ⟨(watchdog_same c).2, congrArg (fun v : S.State × Pipeline => Log.work v.2.log) (watchdog_view c),
    congrArg Prod.fst (watchdog_view c)⟩

theorem tick_work {S : Surroundings} {c c' : Core S} {more : Bool} (ran : c.tick = .ok (more, c')) :
    c.work ≤ c'.work :=
  (tick_runs ran).work_le

/-- A result comes nearer with every cycle that does no work. -/
theorem tick_near (prompt : β.Prompt P n) (short : bound < Memory.coherenceSuspendedLatency)
    (sole : Sole P n bound c.desk.1 c.desk.2) (result : c.ResultWithin k) {more : Bool}
    (ran : c.tick = .ok (more, c')) : c.work < c'.work ∨ ∃ j < k, c'.ResultWithin j := by
  obtain ⟨staged, done, rfl, -⟩ := tick_eq ran
  obtain ⟨units, work, outside⟩ := staged.closeCycle.watchdog_keeps
  obtain ⟨mispred, c₁, retired, rest⟩ := stages_eq done
  have closed : staged.closeCycle.watchdog.2.work = staged.work := work
  rw [closed]
  rcases stageStateUpdate_work retired with worked | ⟨rfl, ⟨stats, rfl⟩, -⟩
  · left
    have later : c₁.work ≤ staged.work := by
      rcases rest with ⟨-, rfl⟩ | ⟨-, c₂, c₃, executed, scheduled, fetched⟩
      · exact Nat.le_refl _
      · have dispatch : Runs (F.over β) c₃.view c₃.stageDispatch.view := dispatchLoop_runs
        exact Runs.work_le (((stageExec_runs executed).trans (stageSchedule_runs scheduled)).trans
          (dispatch.trans (stageFetch_runs fetched)))
    exact Nat.lt_of_lt_of_le worked later
  obtain ⟨mispred, -⟩ | ⟨-, c₂, c₃, executed, scheduled, fetched⟩ := rest
  · cases mispred
  have dispatch : Runs (F.over β) c₃.view c₃.stageDispatch.view := dispatchLoop_runs
  have later : c₂.work ≤ staged.work :=
    Runs.work_le ((stageSchedule_runs scheduled).trans (dispatch.trans (stageFetch_runs fetched)))
  rcases stageExec_work executed with worked | ⟨rfl, silent⟩
  · exact .inl (Nat.lt_of_lt_of_le worked later)
  have near : ({ c with stats } : Core (F.over β)).ResultWithin k := by
    cases result with
    | alu mem => exact .alu mem
    | mul mem left => exact .mul mem left
    | lsu mem left => exact .lsu mem left
  obtain ⟨j, less, coming⟩ := near.coming silent
  have exec : Sole P n bound (shiftMul { c with stats }).desk.1 (shiftMul { c with stats }).desk.2 := sole
  have placed := (fires_coming prompt short).stageSchedule ⟨exec, coming⟩ scheduled
  have units₃ : staged.units = c₃.units := (stageFetch_same fetched).2.trans dispatchLoop_units
  have desk : staged.desk = c₃.desk := (stageFetch_desk fetched).trans dispatchLoop_desk
  refine .inr ⟨j, less, ?_⟩
  cases placed.2 with
  | @mul u mem left =>
      refine .mul (u := u) ?_ left
      rw [units]
      change u ∈ staged.units.mul
      rwa [units₃]
  | @lsu u mem left =>
      refine .lsu (u := u) ?_ ?_
      · rw [units]
        change some u ∈ staged.units.lsu
        rwa [units₃]
      · have cache : (staged.closeCycle.watchdog.2).desk.1 = (staged.desk.1).apply .tick :=
          congrArg Prod.snd outside
        rw [cache, desk]
        exact left.tick

/-! ## Cores on their way -/

/-- What holds of a core throughout its run. -/
structure Alive (cfg : OooConfig) (unread : F.State → Nat) (records : Nat) (P : β.State → Prop) (n bound : Nat)
    (c : Core (F.over β)) : Prop where
  steady : c.Steady
  fits : c.pipe.Fits cfg
  settled : c.pipe.Settled
  shaped : Shaped cfg c.units
  supplied : Supplied unread records c
  sole : Sole P n bound c.desk.1 c.desk.2

variable {cfg : OooConfig} {unread : F.State → Nat} {records : Nat}

theorem tick_alive (replays : F.Replays unread) (prompt : β.Prompt P n)
    (short : bound < Memory.coherenceSuspendedLatency) (alive : c.Alive cfg unread records P n bound)
    {more : Bool} (ran : c.tick = .ok (more, c')) : c'.Alive cfg unread records P n bound := by
  have pipes : Turns fun c : Core (F.over β) => c.Steady ∧ (c.pipe.Fits cfg ∧ c.pipe.Settled) :=
    turns_of_steps (J := fun p => p.Fits cfg ∧ p.Settled) fun steady inv step =>
      ⟨inv.1.step step, inv.2.step steady.sound.order step⟩
  have keeps := pipes.and ((turns_shaped cfg).and ((turns_supplied replays records).and
    (turns_sole prompt short)))
  obtain ⟨⟨steady, fits, settled⟩, shaped, supplied, sole⟩ := keeps.tick
    ⟨⟨alive.steady, alive.fits, alive.settled⟩, alive.shaped, alive.supplied, alive.sole⟩ ran
  exact ⟨steady, fits, settled, shaped, supplied, sole⟩

/-- There is no more work than the records make. -/
theorem Alive.work_le (alive : c.Alive cfg unread records P n bound) : c.work ≤ 4 * records := by
  have most := alive.settled.work_le alive.steady.sound.order
  have all := alive.supplied.all
  have fetched : Log.work c.log ≤ 4 * (Log.fetched c.log).length := most
  change Log.work c.log ≤ _
  omega

/-- A cycle that begins with idle units works, places an entry or ends the run. -/
theorem tick_idle (replays : F.Replays unread) (usable : cfg.Usable)
    (alive : c.Alive cfg unread records P n bound) (idle : c.units.Idle) {more : Bool}
    (ran : c.tick = .ok (more, c')) : c.work < c'.work ∨ ¬c'.units.Idle ∨ c'.drained = true := by
  obtain ⟨staged, done, rfl, -⟩ := tick_eq ran
  have same : c.cfg = cfg := alive.fits.same
  have fits : c.pipe.Fits c.cfg := same ▸ alive.fits
  have full : (F.over β).l1Full c.outside = false := alive.sole.room idle.lsu
  have takes : ∀ req, ∃ id o, (F.over β).l1Issue c.outside req = .ok (some id, o) := by
    intro req
    obtain ⟨id, taken⟩ := Sole.takes full req
    exact ⟨id, _, congrArg (fun id => Except.ok (id, _)) taken⟩
  have ungated : ∀ o o', (F.over β).next o = .ok (none, o') → (F.over β).blocked o' = false :=
    fun o o' ended => ((replays.next ended).2 rfl).2
  obtain ⟨units, work, -⟩ := staged.closeCycle.watchdog_keeps
  have view := watchdog_view staged.closeCycle
  rcases stages_idle alive.steady alive.settled fits (same ▸ usable) idle
    (alive.shaped.staffed usable) full takes ungated done with worked | busy | drained
  · exact .inl (Nat.lt_of_lt_of_le worked work.ge)
  · refine .inr (.inl ?_)
    rw [units]
    exact busy
  · have finished := drained_iff.mp drained
    refine .inr (.inr (drained_iff.mpr ⟨?_, ?_, ?_, ?_⟩))
    · exact (watchdog_watched staged.closeCycle).eof.trans finished.eof
    · exact (congrArg (fun v : (F.over β).State × Pipeline => v.2.dispq) view).trans finished.dispq
    · exact (congrArg (fun v : (F.over β).State × Pipeline => v.2.rob.count) view).trans finished.rob
    · exact (congrArg (fun v : (F.over β).State × Pipeline => v.2.sq) view).trans finished.sq

/-- The cycles from one piece of work to the next, at most. -/
def patience (bound : Nat) : Nat := max 2 bound + 1

/-- Work is done within `k` cycles. -/
structure Nears (bound k : Nat) (c : Core (F.over β)) : Prop where
  some : k ≤ patience bound
  result : k < patience bound → c.ResultWithin k

theorem tick_nears (replays : F.Replays unread) (prompt : β.Prompt P n)
    (short : bound < Memory.coherenceSuspendedLatency) (usable : cfg.Usable)
    (alive : c.Alive cfg unread records P n bound) (nears : c.Nears bound k) {more : Bool}
    (ran : c.tick = .ok (more, c')) :
    c.work < c'.work ∨ (∃ j < k, c'.Nears bound j) ∨ k ≠ 0 ∧ c'.drained = true := by
  have after := tick_alive replays prompt short alive ran
  have near : ∀ {j}, c.ResultWithin j → j ≤ k → j < patience bound →
      c.work < c'.work ∨ (∃ j < k, c'.Nears bound j) ∨ k ≠ 0 ∧ c'.drained = true := by
    intro j result le less
    rcases tick_near prompt short alive.sole result ran with worked | ⟨i, nearer, next⟩
    · exact .inl worked
    · exact .inr (.inl ⟨i, Nat.lt_of_lt_of_le nearer le,
        Nat.le_of_lt (Nat.lt_trans nearer less), fun _ => next⟩)
  rcases Nat.lt_or_eq_of_le nears.some with less | rfl
  · exact near (nears.result less) (Nat.le_refl _) less
  have last : max 2 bound < patience bound := Nat.lt_succ_self _
  by_cases idle : c.units.Idle
  case neg =>
    exact near (resultWithin_of_busy alive.sole idle (Nat.le_max_left _ _) (Nat.le_max_right _ _))
      (Nat.le_of_lt last) last
  rcases tick_idle replays usable alive idle ran with worked | busy | drained
  · exact .inl worked
  · refine .inr (.inl ⟨max 2 bound, last, Nat.le_of_lt last, fun _ => ?_⟩)
    exact resultWithin_of_busy after.sole busy (Nat.le_max_left _ _) (Nat.le_max_right _ _)
  · exact .inr (.inr ⟨Nat.succ_ne_zero _, drained⟩)

/-! ## The watchdog -/

theorem watchdog_moved {S : Surroundings} {c : Core S} (on : c.cfg.deadlockThresholdCycles ≠ 0)
    (moved : c.lastProgressSig ≠ some c.progressSig) : c.watchdog.2.stallCycles = 0 := by
  unfold watchdog
  rw [if_neg on, if_neg moved]

/-- A watchdog that is off, or whose threshold is at least `max 2 bound + 2`. -/
def Lenient (cfg : OooConfig) (bound : Nat) : Prop :=
  cfg.deadlockThresholdCycles = 0 ∨ patience bound < cfg.deadlockThresholdCycles

/-- What the watchdog has counted and the core may still wait is no more than it needs. -/
structure Patient (bound k : Nat) (c : Core (F.over β)) : Prop where
  watched : c.cfg.deadlockThresholdCycles ≠ 0 → c.lastProgressSig = none ∨ c.lastProgressSig = some c.progressSig
  stall : c.cfg.deadlockThresholdCycles ≠ 0 → c.stallCycles + k ≤ patience bound
  calm : c.stats.deadlocked = false

/-- The watchdog does not stop a core that works again in time. -/
theorem tick_patient {j : Nat} (lenient : Lenient cfg bound) (alive : c.Alive cfg unread records P n bound)
    (after : c'.Alive cfg unread records P n bound) (patient : c.Patient bound k) {more : Bool}
    (ran : c.tick = .ok (more, c')) (next : c.work < c'.work ∧ j ≤ patience bound ∨ j < k) (fits : k ≤ patience bound) :
    c'.Patient bound j ∧ more = !c'.drained := by
  have flags := tick_flags ran
  obtain ⟨staged, done, rfl, continues⟩ := tick_eq ran
  obtain ⟨accounts, defers⟩ := stages_books done
  have watched := staged.closeCycle.watchdog_watched
  have cfg_c : c.cfg = cfg := alive.fits.same
  have cfg_s : staged.closeCycle.cfg = c.cfg := accounts.cfg
  have last : staged.closeCycle.lastProgressSig = c.lastProgressSig := defers.lastProgressSig
  have stalled : staged.closeCycle.stallCycles = c.stallCycles := defers.stallCycles
  have fires := watchdog_fires_iff staged.closeCycle
  have cfg_w := watched.cfg
  have sig := watched.sig
  have counts := watched.stallCycles
  have resets := watchdog_moved (c := staged.closeCycle)
  have marks := watched.lastProgressSig
  generalize staged.closeCycle.watchdog = w at *
  rw [cfg_s] at cfg_w resets counts marks
  -- Where the signature has not moved, the core was waiting.
  have waiting : c.cfg.deadlockThresholdCycles ≠ 0 → c.lastProgressSig = some w.2.progressSig → j < k := by
    intro on same
    rcases next with ⟨worked, -⟩ | nearer
    · rcases patient.watched on with none | seen
      · cases none.symm.trans same
      · have still := work_of_sig alive.steady.sound.order alive.settled after.steady.sound.order
          after.settled (Option.some.inj (same.symm.trans seen))
        omega
    · exact nearer
  have stall : c.cfg.deadlockThresholdCycles ≠ 0 → w.2.stallCycles + j ≤ patience bound := by
    intro on
    by_cases same : c.lastProgressSig = some w.2.progressSig
    · have one := counts on (by rw [last, same, sig])
      have nearer := waiting on same
      have before := patient.stall on
      omega
    · have none := resets on (by rw [last, ← sig]; exact same)
      rcases next with ⟨-, le⟩ | nearer
      · omega
      · omega
  have early : ∀ {count : Nat}, c.cfg.deadlockThresholdCycles ≠ 0 → count ≤ patience bound →
      ¬c.cfg.deadlockThresholdCycles ≤ count := by
    intro count on le reached
    rw [cfg_c] at on reached
    rcases lenient with off | longer
    · exact on off
    · omega
  refine ⟨⟨fun on => .inr ?_, fun on => stall (cfg_w ▸ on), ?_⟩, ?_⟩
  · rw [marks (cfg_w ▸ on), sig]
  · rw [flags, patient.calm, Bool.false_or, decide_eq_false]
    intro due
    have nearer := waiting due.1 due.2.1
    have before := patient.stall due.1
    exact early due.1 (by omega) due.2.2
  · have quiet : w.1 = false := by
      by_contra fired
      have condemned := fires.mp (by simpa using fired)
      unfold Condemned at condemned
      rw [cfg_w] at condemned
      have reached := stall condemned.1
      exact early condemned.1 (by omega) condemned.2
    rw [continues, quiet]
    rfl

/-! ## Runs to the end -/

/-- A turn of the loop in `OooCore::run`: no cap is zero. -/
def turn {S : Surroundings} (cycleCap : Nat) (c : Core S) : Except String (Bool × Core S) :=
  match c.tick with
  | .error fault => .error fault
  | .ok (more, c) => .ok (more && !decide (cycleCap ≠ 0 ∧ c.stats.cycles ≥ cycleCap), c)

/-- `OooCore::run`, of at most `fuel` cycles. -/
def run {S : Surroundings} (cycleCap fuel : Nat) (c : Core S) : Except String (Option (Core S)) :=
  Loop.run (turn cycleCap) fuel c

/-- A core that will work within `k` cycles, before its watchdog fires. -/
structure Going (cfg : OooConfig) (unread : F.State → Nat) (records : Nat) (P : β.State → Prop) (n bound k : Nat)
    (c : Core (F.over β)) : Prop where
  alive : c.Alive cfg unread records P n bound
  nears : c.Nears bound k
  patient : c.Patient bound k

theorem turn_going (replays : F.Replays unread) (prompt : β.Prompt P n)
    (short : bound < Memory.coherenceSuspendedLatency) (usable : cfg.Usable) (lenient : Lenient cfg bound)
    (cycleCap : Nat) (going : c.Going cfg unread records P n bound k) :
    ∃ more c', turn cycleCap c = .ok (more, c') ∧
      (more = false ∧ (c'.Alive cfg unread records P n bound ∧ c'.stats.deadlocked = false ∧
          (c'.drained = true ∨ cycleCap ≠ 0 ∧ cycleCap ≤ c'.stats.cycles)) ∨
        more = true ∧ (c.work < c'.work ∧ c'.Going cfg unread records P n bound (patience bound) ∨
          ∃ j < k, c.work ≤ c'.work ∧ c'.Going cfg unread records P n bound j)) := by
  obtain ⟨alive, nears, patient⟩ := going
  obtain ⟨more, c', ran⟩ := tick_ok replays.willing alive.steady
  have after := tick_alive replays prompt short alive ran
  obtain ⟨j, calm, goes⟩ : ∃ j, (c'.Patient bound j ∧ more = !c'.drained) ∧ (c'.drained = true ∨
      (c.work < c'.work ∧ j = patience bound ∨ j < k) ∧ c'.Nears bound j) := by
    rcases tick_nears replays prompt short usable alive nears ran with worked | ⟨j, nearer, next⟩ | ⟨some, drained⟩
    · refine ⟨patience bound, ?_, .inr ⟨.inl ⟨worked, rfl⟩, Nat.le_refl _, fun less => ?_⟩⟩
      · exact tick_patient lenient alive after patient ran (.inl ⟨worked, Nat.le_refl _⟩) nears.some
      · exact absurd less (Nat.lt_irrefl _)
    · exact ⟨j, tick_patient lenient alive after patient ran (.inr nearer) nears.some, .inr ⟨.inr nearer, next⟩⟩
    · exact ⟨0, tick_patient lenient alive after patient ran (.inr (Nat.pos_of_ne_zero some)) nears.some,
        .inl drained⟩
  obtain ⟨calm, continues⟩ := calm
  refine ⟨_, c', by rw [turn, ran], ?_⟩
  by_cases drained : c'.drained = true
  · left
    rw [continues, drained]
    exact ⟨rfl, after, calm.calm, .inl rfl⟩
  · obtain ⟨less, next⟩ := goes.resolve_left drained
    have drained : c'.drained = false := by simpa using drained
    rw [continues, drained]
    by_cases capped : cycleCap ≠ 0 ∧ cycleCap ≤ c'.stats.cycles
    · left
      exact ⟨by simp [capped], after, calm.calm, .inr capped⟩
    · right
      refine ⟨by simp [capped], ?_⟩
      rcases less with ⟨worked, rfl⟩ | nearer
      · exact .inl ⟨worked, after, next, calm⟩
      · exact .inr ⟨j, nearer, tick_work ran, after, next, calm⟩

end

end Core

section

variable {F : Front} {β : Memory.Beneath} {P : β.State → Prop} {n : Nat} {unread : F.State → Nat}
  {cfg : OooConfig} {l1 : Memory.Config} {prefetcher : Option Memory.Prefetcher} {front : F.State}
  {below : β.State} {tid : Nat}

theorem going_start (entries : l1.mshrEntries ≠ 0) (sink : l1.coherenceSink = false) (fine : P below) :
    (Core.over cfg front l1 prefetcher below tid).Going cfg unread (unread front) P n (l1.hitLatency + n)
      (Core.patience (l1.hitLatency + n)) where
  alive :=
    { steady := steady_run .start
      fits := fits_run .start
      settled := ⟨rfl, fun blocked => by cases blocked⟩
      shaped := ⟨List.length_replicate, List.length_replicate, List.length_replicate⟩
      supplied := ⟨rfl, fun ended => by cases ended⟩
      sole := .start prefetcher entries sink (Nat.le_refl _) fine cfg.lsuFus }
  nears := ⟨Nat.le_refl _, fun less => absurd less (Nat.lt_irrefl _)⟩
  patient := ⟨fun _ => .inl rfl, fun _ => (Nat.zero_add _).le, rfl⟩

/-- A core over its own hierarchy runs its trace to the end within a number of cycles that
    grows with the trace and the latency of the hierarchy, which stays below the latency
    that marks a suspended access: no cycle fails, every record is fetched and retired, in
    order, and the watchdog does not fire where its threshold is 0 or more than the longest
    a core goes without progress. -/
theorem run_completes (replays : F.Replays unread) (prompt : β.Prompt P n) (fine : P below)
    (entries : l1.mshrEntries ≠ 0) (sink : l1.coherenceSink = false)
    (short : l1.hitLatency + n < Memory.coherenceSuspendedLatency) (usable : cfg.Usable)
    (lenient : Core.Lenient cfg (l1.hitLatency + n)) (cycleCap : Nat) {fuel : Nat}
    (enough : (4 * unread front + 1) * (Core.patience (l1.hitLatency + n) + 1) ≤ fuel) :
    ∃ c', (Core.over cfg front l1 prefetcher below tid : Core (F.over β)).run cycleCap fuel = .ok (some c') ∧
      c'.stats.deadlocked = false ∧
      (c'.drained = true ∧ (Log.retired c'.log).map (·.1) = Log.fetched c'.log ∧
          c'.stats.instructionsRetired = unread front ∧ c'.stats.instructionsFetched = unread front ∨
        cycleCap ≠ 0 ∧ cycleCap ≤ c'.stats.cycles) := by
  have start : (Core.over cfg front l1 prefetcher below tid : Core (F.over β)).Going cfg unread
      (unread front) P n (l1.hitLatency + n) (Core.patience (l1.hitLatency + n)) :=
    going_start entries sink fine
  have bounded : ∀ k (c : Core (F.over β)), c.Going cfg unread (unread front) P n (l1.hitLatency + n) k →
      c.work ≤ 4 * unread front := fun _ _ going => going.alive.work_le
  have none : (Core.over cfg front l1 prefetcher below tid : Core (F.over β)).work = 0 := rfl
  have turns : (4 * unread front - (Core.over cfg front l1 prefetcher below tid : Core (F.over β)).work) *
      (Core.patience (l1.hitLatency + n) + 1) + Core.patience (l1.hitLatency + n) < fuel := by
    rw [none, Nat.sub_zero]
    rw [Nat.succ_mul] at enough
    omega
  obtain ⟨c', ran, alive, calm, ended⟩ := Loop.run_paced bounded
    (fun _ _ going => Core.turn_going replays prompt short usable lenient cycleCap going) start turns
  refine ⟨c', ran, calm, ended.imp_left fun drained => ?_⟩
  have finished := Core.drained_iff.mp drained
  have order := alive.steady.sound.order
  have retired : (Log.retired c'.log).map (·.1) = Log.fetched c'.log :=
    order.all_retired finished.dispq finished.rob
  have all := alive.supplied.all
  rw [alive.supplied.eof finished.eof, Nat.zero_add] at all
  have counts := congrArg List.length retired
  have numbered := congrArg List.length order.numbered
  rw [List.length_map] at counts
  rw [List.length_map, List.length_range'] at numbered
  exact ⟨drained, retired, order.retiredCount.trans (counts.trans all),
    order.fetchedCount.trans (numbered.symm.trans all)⟩

end

theorem Front.listed_replays : Front.listed.Replays List.length where
  ends records none := ⟨[], by simp [List.length_eq_zero_iff.mp none, Front.listed], rfl, rfl⟩
  delivers records some := by
    obtain ⟨record, rest, rfl⟩ := List.exists_cons_of_ne_nil (mt List.length_eq_zero_iff.mpr some)
    exact ⟨record, rest, rfl, rfl⟩
  notifyRetire records _ _ _ := ⟨records, rfl, rfl⟩
  predict _ _ := rfl
  update _ _ _ := rfl

/-- A load, a branch that is not taken, and a store of what was loaded, over two levels with a
    prefetcher in the second. -/
def shortTrace : Core (Front.listed.over (Memory.Beneath.memory.level true)) :=
  .over { deadlockThresholdCycles := 200 }
    ([{ ip := 4, sourceMemory := [64], destinationRegisters := [2] },
      { ip := 8, isBranch := true, sourceRegisters := [2] },
      { ip := 12, sourceRegisters := [2], destinationMemory := [128] }] : List Record)
    {} none (none, ⟨Memory.Cache.build { c := 12, hitLatency := 10 }, some .plusOne, ({} : Memory.MainMemory)⟩) 0

theorem shortTrace_completes : ∃ c', shortTrace.run 0 1495 = .ok (some c') ∧
    c'.stats.deadlocked = false ∧ c'.stats.instructionsRetired = 3 := by
  have prompt : (Memory.Beneath.memory.level true).Prompt
      (fun st : Option Memory.Cache × Memory.Served Memory.Beneath.memory.toBelow =>
        st.2.Plain (fun m : Memory.MainMemory => m.latency ≤ 100) 100 110) 110 :=
    (Memory.Beneath.Prompt.memory 100).level (by decide) true
  have completes : ∃ c', shortTrace.run 0 1495 = .ok (some c') ∧ c'.stats.deadlocked = false ∧
      (c'.drained = true ∧ (Log.retired c'.log).map (·.1) = Log.fetched c'.log ∧
          c'.stats.instructionsRetired = 3 ∧ c'.stats.instructionsFetched = 3 ∨
        0 ≠ 0 ∧ 0 ≤ c'.stats.cycles) :=
    run_completes Front.listed_replays prompt ⟨rfl, by decide, Nat.le_refl _⟩ (by decide) rfl (by decide)
      ⟨by decide, by decide, by decide, by decide, by decide, by decide, by decide⟩ (.inr (by decide)) 0
      (by decide)
  obtain ⟨c', ran, calm, ⟨-, -, retired, -⟩ | ⟨capped, -⟩⟩ := completes
  · exact ⟨c', ran, calm, retired⟩
  · exact absurd rfl capped

end Ooo
