import MulticoreSim.Ooo.Watchdog
import MulticoreSim.Ooo.Work

/-! # What moves a core on

A stage that has something to do does it: a result that is there is written back, an
entry that nothing keeps back is placed, an instruction that there is room for is
dispatched or fetched. A core with idle units, over a cache that takes its requests,
works in every cycle until its trace is at the end.
-/

namespace Ooo

/-- The queue is in the order of dispatch. -/
theorem Pipeline.Linked.queue_increasing {p : Pipeline} (linked : p.Linked) (order : p.InOrder) :
    p.sq.Pairwise fun s s' => s.destTag < s'.destTag := by
  have held : (p.sq.map SchedEntry.key).Sublist (p.rob.toList.map RobEntry.key) := by
    rw [linked.queued]
    exact List.filter_sublist.map _
  have sub : (p.rob.toList.map RobEntry.key).Sublist (Log.dispatched p.log) := by
    rw [order.dispatched]
    exact List.sublist_append_right ..
  have keys : (p.sq.map SchedEntry.key).Pairwise (·.2 < ·.2) := linked.increasing.sublist (held.trans sub)
  rw [List.pairwise_map] at keys
  exact keys

namespace Core

variable {S : Surroundings} {c c' : Core S}

/-! ## The oldest entry -/

theorem foldl_takeOlder_some {pred : SchedEntry → Bool} {sq : List SchedEntry} {oldest : Option SchedEntry}
    (some : oldest.isSome = true ∨ ∃ e ∈ sq, e.canFire = true ∧ pred e = true) :
    (sq.foldl (takeOlder pred) oldest).isSome = true := by
  induction sq generalizing oldest with
  | nil =>
      rcases some with before | ⟨e, mem, -⟩
      · exact before
      · cases mem
  | cons x rest ih =>
      apply ih
      rcases some with before | ⟨e, mem, fires⟩
      · left
        obtain ⟨o, rfl⟩ := Option.isSome_iff_exists.mp before
        unfold takeOlder
        split
        · rfl
        · dsimp only
          split <;> rfl
      · rcases List.mem_cons.mp mem with rfl | later
        · left
          unfold takeOlder
          rw [if_neg (by simp [fires])]
          cases oldest with
          | none => rfl
          | some o =>
              dsimp only
              split <;> rfl
        · exact .inr ⟨e, later, fires⟩

/-- Where an entry can fire, one is picked. -/
theorem pickOldest_some {p : SchedEntry → Bool} {sq : List SchedEntry} {e : SchedEntry} (mem : e ∈ sq)
    (canFire : e.canFire = true) (meets : p e = true) : ∃ oldest, pickOldest sq p = some oldest :=
  Option.isSome_iff_exists.mp (foldl_takeOlder_some (.inr ⟨e, mem, canFire, meets⟩))

/-- The first of the queue waits for nothing. -/
theorem Steady.first (steady : Steady c) (queued : c.sq ≠ []) : ∃ e ∈ c.sq, e.src1.ready = true ∧
    e.src2.ready = true ∧ ambiguous c.sq e = false := by
  have order := steady.sound.order
  obtain ⟨e, rest, sq⟩ := List.exists_cons_of_ne_nil queued
  have mem : e ∈ c.sq := sq ▸ List.mem_cons_self
  have increasing : c.sq.Pairwise fun s s' => s.destTag < s'.destTag :=
    steady.sound.linked.queue_increasing order
  rw [sq, List.pairwise_cons] at increasing
  have earliest : ∀ {tag}, tag < e.destTag → ¬c.pipe.Waits tag := by
    rintro tag less ⟨s, waiting, rfl⟩
    have waiting : s ∈ c.sq := waiting
    rw [sq] at waiting
    rcases List.mem_cons.mp waiting with rfl | later
    · exact Nat.lt_irrefl _ less
    · exact Nat.lt_asymm less (increasing.1 s later)
  have ready : ∀ {reg : Option Reg} {tag : Nat} {ready : Bool},
      c.pipe.ReadsBelow e.destTag reg tag ready → ready = true := by
    intro reg tag ready reads
    unfold Pipeline.ReadsBelow Renaming.Reads at reads
    split at reads
    · exact reads
    · next writer last =>
        obtain ⟨r, -, below⟩ := Option.bind_eq_some_iff.mp last
        cases ready with
        | true => rfl
        | false => exact absurd (reads.2.mp rfl) (earliest (Renaming.writerBelow_mem below).2.1)
  obtain ⟨src1, src2⟩ := steady.sound.renamed.operands e mem
  refine ⟨e, mem, ready src1, ready src2, ?_⟩
  rw [ambiguous_eq_false]
  intro other waiting older
  have tags := (steady.sound.linked.older_iff order (steady.sound.linked.dispatched order waiting)
    (steady.sound.linked.dispatched order mem)).mp older
  exact absurd ⟨other, waiting, rfl⟩ (earliest tags)

/-! ## Entries in units -/

/-- Some entry is in a unit. -/
def Stirs (c : Core S) : Prop := ∃ e ∈ c.sq, e.busy = true

theorem stirs_markBusy {e : SchedEntry} (queued : e ∈ c.sq) : ∃ s ∈ markBusy c.sq e.destTag, s.busy = true := by
  obtain ⟨s, -, -, marked⟩ := Memory.exists_modifyFirst (p := fun s => s.destTag = e.destTag)
    (f := fun s : SchedEntry => { s with busy := true }) queued (by simp)
  exact ⟨_, marked, rfl⟩

theorem fires_stirs : Fires (Stirs (S := S)) where
  alu _ queued _ _ _ := stirs_markBusy queued
  mul _ queued _ _ _ := stirs_markBusy queued
  turnedAway stirs _ _ := stirs
  lsu _ picked _ _ := stirs_markBusy picked.queued

theorem stirs_iff (steady : Steady c) : c.Stirs ↔ ¬c.units.Idle := by
  constructor
  · rintro ⟨e, mem, busy⟩ idle
    have once := steady.held.count steady.nodup mem
    have none : c.units.tags = 0 := by
      have alu : (c.units.alu.map fun u => u.elim (0 : Multiset Nat) singleton).sum = 0 := by
        apply List.sum_eq_zero
        intro x mem
        obtain ⟨u, inside, rfl⟩ := List.mem_map.mp mem
        rw [idle.alu u inside]
        rfl
      have mul : (c.units.mul.map MulUnit.tags).sum = 0 := by
        apply List.sum_eq_zero
        intro x mem
        obtain ⟨u, inside, rfl⟩ := List.mem_map.mp mem
        rw [idle.mul u inside]
        rfl
      have lsu : (c.units.lsu.map fun u => u.elim (0 : Multiset Nat) fun u => {u.sched}).sum = 0 := by
        apply List.sum_eq_zero
        intro x mem
        obtain ⟨u, inside, rfl⟩ := List.mem_map.mp mem
        rw [idle.lsu u inside]
        rfl
      rw [Units.tags, alu, mul, lsu]
      rfl
    rw [if_pos busy, show c.pipe.pointers = c.units.tags from rfl, none] at once
    cases once
  · intro busy
    by_contra still
    apply busy
    apply Units.idle_of_tags
    have held : c.units.tags = _ := steady.held
    rw [held, List.filter_eq_nil_iff.mpr]
    · rfl
    · intro e mem busy
      exact still ⟨e, mem, busy⟩

/-- A pass over one class of units places an entry or changes nothing. -/
theorem fireInto_stirs {runs : Opcode → Bool} {free : Units → Bool} {place : Units → Nat → Units}
    (avail : Nat) (c : Core S) :
    fireInto runs free place avail c = c ∨ (fireInto runs free place avail c).Stirs := by
  induction avail generalizing c with
  | zero => exact .inl rfl
  | succ avail ih =>
      unfold fireInto
      split
      · exact .inl rfl
      · next oldest picked =>
          have queued := (pickOldest_spec picked).1
          split
          · right
            exact fireInto_keeps (I := Stirs) (fun _ queued _ _ _ => stirs_markBusy queued)
              (stirs_markBusy queued)
          · exact ih c

/-- It places one where one is there and a unit is free. -/
theorem fireInto_places {runs : Opcode → Bool} {free : Units → Bool} {place : Units → Nat → Units}
    {avail : Nat} (some : avail ≠ 0) (isFree : free c.units = true) {e : SchedEntry} (queued : e ∈ c.sq)
    (canFire : e.canFire = true) (op : runs e.inst.opcode = true) :
    (fireInto runs free place avail c).Stirs := by
  cases avail with
  | zero => exact absurd rfl some
  | succ avail =>
      obtain ⟨oldest, picked⟩ := pickOldest_some (p := fun e => runs e.inst.opcode) queued canFire op
      unfold fireInto
      rw [picked]
      dsimp only
      rw [if_pos isFree]
      exact fireInto_keeps (I := Stirs) (fun _ queued _ _ _ => stirs_markBusy queued)
        (stirs_markBusy (pickOldest_spec picked).1)

/-- Some unit of each kind is there. -/
structure Staffed (units : Units) : Prop where
  alu : units.alu ≠ []
  mul : units.mul ≠ []
  lsu : units.lsu ≠ []

/-- Around idle units, and where the cache takes any request, an entry is placed. -/
theorem stageSchedule_stirs (steady : Steady c) (idle : c.units.Idle) (staffed : Staffed c.units)
    (queued : c.sq ≠ []) (room : S.l1Full c.outside = false)
    (takes : ∀ req, ∃ id o, S.l1Issue c.outside req = .ok (some id, o))
    (ran : c.stageSchedule = .ok c') : c'.Stirs := by
  obtain ⟨e, mem, src1, src2, clear⟩ := steady.first queued
  have unplaced : e.busy = false := by
    by_contra busy
    exact (stirs_iff steady).mp ⟨e, mem, by simpa using busy⟩ idle
  have canFire : e.canFire = true := by simp [SchedEntry.canFire, unplaced, src1, src2]
  rcases fireInto_stirs (c.units.alu.countP (·.isNone)) c with same | stirs
  case inr => exact fires_stirs.fireLsuLoop (fires_stirs.fireMul stirs) ran
  have same : c.fireAlu = c := same
  rw [stageSchedule, same] at ran
  rcases fireInto_stirs (c.units.mul.countP (·.stage1.isNone)) c with still | stirs
  case inr => exact fires_stirs.fireLsuLoop stirs ran
  have still : c.fireMul = c := still
  rw [still] at ran
  obtain ⟨alu, alu_mem⟩ := List.exists_mem_of_ne_nil _ staffed.alu
  obtain ⟨mul, mul_mem⟩ := List.exists_mem_of_ne_nil _ staffed.mul
  obtain ⟨lsu, lsu_mem⟩ := List.exists_mem_of_ne_nil _ staffed.lsu
  have aluFree : c.units.alu.any (·.isNone) = true :=
    List.any_eq_true.mpr ⟨alu, alu_mem, by simp [idle.alu alu alu_mem]⟩
  have mulFree : c.units.mul.any (·.stage1.isNone) = true :=
    List.any_eq_true.mpr ⟨mul, mul_mem, by simp [idle.mul mul mul_mem]⟩
  have lsuFree : c.units.lsu.any (·.isNone) = true :=
    List.any_eq_true.mpr ⟨lsu, lsu_mem, by simp [idle.lsu lsu lsu_mem]⟩
  have counted : ∀ {α : Type} {p : α → Bool} {l : List α}, l.any p = true → l.countP p ≠ 0 := by
    intro α p l some
    exact Nat.ne_of_gt (List.countP_pos_iff.mpr (List.any_eq_true.mp some))
  have unplaced : ¬c.Stirs := fun stirs => (stirs_iff steady).mp stirs idle
  cases op : e.inst.opcode with
  | alu | branch =>
      have placed : c.fireAlu.Stirs := fireInto_places (counted aluFree) aluFree mem canFire (by simp [op])
      exact absurd (same ▸ placed) unplaced
  | mul =>
      have placed : c.fireMul.Stirs := fireInto_places (counted mulFree) mulFree mem canFire (by simp [op])
      exact absurd (still ▸ placed) unplaced
  | load | store =>
      obtain ⟨avail, count⟩ := Nat.exists_eq_succ_of_ne_zero (counted lsuFree)
      obtain ⟨oldest, picked⟩ := pickOldest_some (p := fun e => e.inst.opcode.isMem && !ambiguous c.sq e)
        mem canFire (by simp [op, clear, Opcode.isMem])
      obtain ⟨id, outside, issued⟩ := takes (c.memReq oldest.inst)
      rw [fireLsu, count] at ran
      simp only [fireLsuLoop, picked, room, lsuFree, issued, Bool.false_eq_true, and_false, if_false,
        Bool.not_true] at ran
      refine fires_stirs.fireLsuLoop ?_ ran
      exact stirs_markBusy (pickOldest_spec picked).1

/-! ## Dispatch and fetch -/

theorem stageDispatch_works (width : c.cfg.fetchWidth ≠ 0) (queued : c.dispq ≠ [])
    (schedqRoom : c.sq.length < c.cfg.schedqCapacity) (robRoom : c.rob.full = false) :
    c.work < c.stageDispatch.work := by
  obtain ⟨inst, rest, dispq⟩ := List.exists_cons_of_ne_nil queued
  obtain ⟨turns, count⟩ := Nat.exists_eq_succ_of_ne_zero width
  have blocked : ¬(c.sq.length ≥ c.cfg.schedqCapacity ∨ c.rob.full = true) := by
    simp [robRoom, Nat.not_le.mpr schedqRoom]
  have first : c.stageDispatch = dispatchLoop turns (c.dispatchOne inst rest) := by
    rw [stageDispatch, count, dispatchLoop, dispq]
    exact if_neg blocked
  have one : (c.dispatchOne inst rest).work = c.work + 1 := by
    rw [work, dispatchOne, Log.work_snoc]
    rfl
  have runs : Runs S (c.dispatchOne inst rest).view (dispatchLoop turns (c.dispatchOne inst rest)).view :=
    dispatchLoop_runs
  have more : (c.dispatchOne inst rest).work ≤ (dispatchLoop turns (c.dispatchOne inst rest)).work :=
    runs.work_le
  rw [first]
  omega

/-- Where nothing holds the trace back, fetch delivers a record or comes to its end. -/
theorem stageFetch_works (width : c.cfg.fetchWidth ≠ 0) (unblocked : c.inMispred = false)
    (room : c.dispq.length < c.cfg.dispqCapacity)
    (ungated : ∀ o o', S.next o = .ok (none, o') → S.blocked o' = false)
    (ran : c.stageFetch = .ok c') : c.work < c'.work ∨ c'.eof = true ∧ c'.dispq = c.dispq ∧ c'.rob = c.rob ∧
      c'.sq = c.sq := by
  obtain ⟨turns, count⟩ := Nat.exists_eq_succ_of_ne_zero width
  unfold stageFetch at ran
  rw [if_neg (by simp [unblocked])] at ran
  split at ran
  · next ended =>
      cases ran
      exact .inr ⟨ended, rfl, rfl, rfl⟩
  · split at ran
    · cases ran
    · next looped =>
        rw [count, fetchLoop, if_neg (Nat.not_le.mpr room)] at looped
        split at looped
        · cases looped
        · next starved =>
            rw [if_neg (by simp [ungated _ _ starved])] at looped
            cases looped
            cases ran
            exact .inr ⟨rfl, rfl, rfl, rfl⟩
        · next rec outside delivered =>
            left
            have one : (c.fetchOne rec outside).work = c.work + 1 := by
              rw [work, fetchOne, Log.work_snoc]
              rfl
            dsimp only at looped
            split at looped
            · cases looped
              cases ran
              change c.work < (c.fetchOne rec outside).work
              omega
            · next again =>
              have more := (fetchLoop_runs (by simpa using again) looped).work_le
              cases ran
              have first : c.work < (c.fetchOne rec outside).work := by omega
              exact Nat.lt_of_lt_of_le first more

/-! ## Exec -/

theorem writeback_work {tag : Nat} (ran : c.writeback tag = .ok c') : c'.work = c.work + 1 := by
  obtain ⟨sched, -, rfl⟩ := writeback_eq ran
  rw [work, Log.work_snoc]
  rfl

/-- A pass over the units writes something back, or finds no unit that has a result. -/
theorem overUnits_work {step : Core S → Nat → Except String (Core S)} {Answers : Core S → Nat → Prop}
    (each : ∀ c unit c', step c unit = .ok c' → c.work < c'.work ∨ c' = c ∧ ¬Answers c unit)
    {units : List Nat} (ran : overUnits step units c = .ok c') :
    c.work < c'.work ∨ c' = c ∧ ∀ unit ∈ units, ¬Answers c unit := by
  induction units generalizing c with
  | nil =>
      cases ran
      exact .inr ⟨rfl, by simp⟩
  | cons unit rest ih =>
      simp only [overUnits] at ran
      split at ran
      · cases ran
      · next stepped =>
          rcases each _ _ _ stepped with worked | ⟨rfl, silent⟩
          · left
            rcases ih ran with more | ⟨rfl, -⟩
            · exact Nat.lt_trans worked more
            · exact worked
          · rcases ih ran with worked | ⟨same, silents⟩
            · exact .inl worked
            · refine .inr ⟨same, fun other mem => ?_⟩
              rcases List.mem_cons.mp mem with rfl | later
              · exact silent
              · exact silents other later

theorem completeAlu_work {unit : Nat} (ran : c.completeAlu unit = .ok c') :
    c.work < c'.work ∨ c' = c ∧ ¬∃ tag, c.units.alu[unit]? = some (some tag) := by
  simp only [completeAlu] at ran
  split at ran
  · split at ran
    · cases ran
    · next wrote =>
        have more := writeback_work wrote
        cases ran
        left
        exact Nat.lt_of_succ_le more.ge
  · next empty =>
      cases ran
      refine .inr ⟨rfl, ?_⟩
      rintro ⟨tag, here⟩
      exact empty tag here

theorem completeMul_work {unit : Nat} (ran : c.completeMul unit = .ok c') :
    c.work < c'.work ∨ c' = c ∧ ¬∃ u, c.units.mul[unit]? = some u ∧ u.stage3 ≠ none := by
  simp only [completeMul] at ran
  split at ran
  · split at ran
    · cases ran
    · next wrote =>
        have more := writeback_work wrote
        cases ran
        left
        exact Nat.lt_of_succ_le more.ge
  · next empty =>
      cases ran
      refine .inr ⟨rfl, ?_⟩
      rintro ⟨⟨stage1, stage2, stage3⟩, here, last⟩
      obtain ⟨tag, rfl⟩ := Option.ne_none_iff_exists'.mp last
      exact empty stage1 stage2 tag here

theorem pollLsu_work {unit : Nat} (ran : c.pollLsu unit = .ok c') : c.work < c'.work ∨
    c' = c ∧ ¬∃ u, c.units.lsu[unit]? = some (some u) ∧ S.l1Ready c.outside u.mshrId = true := by
  simp only [pollLsu] at ran
  split at ran
  · next u here =>
      split at ran
      · split at ran
        · cases ran
        · next wrote =>
            have more := writeback_work wrote
            cases ran
            left
            exact Nat.lt_of_succ_le more.ge
      · next waiting =>
          cases ran
          refine .inr ⟨rfl, ?_⟩
          rintro ⟨v, there, ready⟩
          rw [here] at there
          cases there
          exact waiting ready
  · next empty =>
      cases ran
      refine .inr ⟨rfl, ?_⟩
      rintro ⟨u, here, -⟩
      exact empty u here

/-- A unit that has a result at the start of a cycle. -/
inductive Answers (c : Core S) : Prop where
  | alu {tag : Nat} (mem : some tag ∈ c.units.alu)
  | mul {u : MulUnit} (mem : u ∈ c.units.mul) (last : u.stage3 ≠ none)
  | lsu {u : LsuUnit} (mem : some u ∈ c.units.lsu) (ready : S.l1Ready c.outside u.mshrId = true)

/-- Where no unit has a result, exec moves the multipliers on and does nothing else. -/
theorem stageExec_work (ran : c.stageExec = .ok c') :
    c.work < c'.work ∨ c' = c.shiftMul ∧ ¬c.Answers := by
  have at_some : ∀ {α : Type} {l : List α} {x : α}, x ∈ l → ∃ i ∈ List.range l.length, l[i]? = some x := by
    intro α l x mem
    obtain ⟨i, bound, here⟩ := List.getElem_of_mem mem
    exact ⟨i, List.mem_range.mpr bound, by rw [List.getElem?_eq_getElem bound, here]⟩
  simp only [stageExec, Bind.bind, Except.bind] at ran
  split at ran
  · cases ran
  · next c₁ aluDone =>
      split at ran
      · cases ran
      · next c₂ mulDone =>
          have shifted : c₂.shiftMul.view = c₂.view := shiftMul_view (mul_cleared mulDone)
          have same : c₂.shiftMul.work = c₂.work :=
            congrArg (fun v : S.State × Pipeline => Log.work v.2.log) shifted
          have alu := overUnits_work (fun _ _ _ => completeAlu_work) aluDone
          have mul := overUnits_work (fun _ _ _ => completeMul_work) mulDone
          have lsu := overUnits_work (fun _ _ _ => pollLsu_work) ran
          rw [same] at lsu
          have grows : c.work ≤ c₁.work ∧ c₁.work ≤ c₂.work ∧ c₂.work ≤ c'.work := by
            refine ⟨?_, ?_, ?_⟩
            · exact alu.elim Nat.le_of_lt fun still => still.1 ▸ Nat.le_refl _
            · exact mul.elim Nat.le_of_lt fun still => still.1 ▸ Nat.le_refl _
            · exact lsu.elim Nat.le_of_lt fun still => by rw [still.1, same]
          rcases alu with worked | ⟨rfl, noAlu⟩
          · exact .inl (by omega)
          rcases mul with worked | ⟨rfl, noMul⟩
          · exact .inl (by omega)
          rcases lsu with worked | ⟨rfl, noLsu⟩
          · exact .inl (by omega)
          refine .inr ⟨rfl, fun answers => ?_⟩
          cases answers with
          | alu mem =>
              obtain ⟨i, inside, here⟩ := at_some mem
              exact noAlu i inside ⟨_, here⟩
          | mul mem last =>
              obtain ⟨i, inside, here⟩ := at_some mem
              exact noMul i inside ⟨_, here, last⟩
          | lsu mem ready =>
              obtain ⟨i, inside, here⟩ := at_some mem
              exact noLsu i inside ⟨_, here, ready⟩

end Core

/-! ## A cycle with idle units -/

/-- No width, queue or class of units is empty. -/
structure OooConfig.Usable (cfg : OooConfig) : Prop where
  fetchWidth : cfg.fetchWidth ≠ 0
  robEntries : cfg.robEntries ≠ 0
  schedqEntriesPerFu : cfg.schedqEntriesPerFu ≠ 0
  dispqCapacity : cfg.dispqCapacity ≠ 0
  aluFus : cfg.aluFus ≠ 0
  mulFus : cfg.mulFus ≠ 0
  lsuFus : cfg.lsuFus ≠ 0

theorem OooConfig.Usable.schedq {cfg : OooConfig} (usable : cfg.Usable) : 0 < cfg.schedqCapacity :=
  Nat.mul_pos (Nat.pos_of_ne_zero usable.schedqEntriesPerFu)
    (Nat.add_pos_right _ (Nat.pos_of_ne_zero usable.lsuFus))

namespace Core

variable {S : Surroundings} {c c' : Core S}

/-- The buffer of a core with an empty queue has a ready head, or is empty too. -/
theorem Steady.rob_ready (steady : Steady c) (empty : c.sq = []) (held : c.rob.count ≠ 0) :
    c.rob.headEntry.ready = true := by
  have queued : ([] : List (Inst × Nat)) = (c.rob.toList.filter (!·.ready)).map RobEntry.key := by
    have queued := steady.sound.linked.queued
    have sq : c.pipe.sq = [] := empty
    rw [sq] at queued
    exact queued
  have none := List.filter_eq_nil_iff.mp (List.map_eq_nil_iff.mp queued.symm)
  have head : c.rob.headEntry ∈ c.rob.toList := by
    have rob : c.rob.toList = c.rob.headEntry :: c.rob.pop.toList := steady.sound.order.rob_head held
    rw [rob]
    exact List.mem_cons_self
  simpa using none _ head

/-- What the rest of a cycle does not undo. -/
theorem stageFetch_same (ran : c.stageFetch = .ok c') : c'.sq = c.sq ∧ c'.units = c.units := by
  simp only [stageFetch] at ran
  split at ran
  · cases ran
    exact ⟨rfl, rfl⟩
  · split at ran
    · cases ran
      exact ⟨rfl, rfl⟩
    · split at ran
      · cases ran
      · next looped =>
          have same := fetchLoop_same looped
          cases ran
          exact same

theorem dispatchLoop_units {width : Nat} : (dispatchLoop width c).units = c.units :=
  dispatchLoop_keeps (I := fun d => d.units = c.units) (fun same _ _ => same) rfl

/-- With idle units, and a cache that takes any request, a cycle does some work or places an
    entry, or the core has come to the end. -/
theorem stages_idle (steady : Steady c) (settled : c.pipe.Settled) (fits : c.pipe.Fits c.cfg)
    (usable : c.cfg.Usable) (idle : c.units.Idle) (staffed : Staffed c.units)
    (room : S.l1Full c.outside = false)
    (takes : ∀ req, ∃ id o, S.l1Issue c.outside req = .ok (some id, o))
    (ungated : ∀ o o', S.next o = .ok (none, o') → S.blocked o' = false) (ran : c.stages = .ok c') :
    c.work < c'.work ∨ ¬c'.units.Idle ∨ c'.drained = true := by
  obtain ⟨mispred, c₁, retired, rest⟩ := stages_eq ran
  rcases stageStateUpdate_work retired with worked | ⟨rfl, ⟨stats, rfl⟩, head⟩
  · left
    rcases rest with ⟨-, rfl⟩ | ⟨-, c₂, c₃, executed, scheduled, fetched⟩
    · exact worked
    · have dispatch : Runs S c₃.view c₃.stageDispatch.view := dispatchLoop_runs
      have last : c₃.work ≤ c'.work := Runs.work_le (dispatch.trans (stageFetch_runs fetched))
      have exec : c₁.work ≤ c₂.work := (stageExec_runs executed).work_le
      have schedule : c₂.work ≤ c₃.work := (stageSchedule_runs scheduled).work_le
      omega
  obtain ⟨mispred, -⟩ | ⟨-, c₂, c₃, executed, scheduled, fetched⟩ := rest
  · cases mispred
  have steady₁ : Steady { c with stats } := stageStateUpdate_steady steady retired
  obtain rfl : { c with stats } = c₂ := by
    rw [stageExec_idle (c := { c with stats }) idle] at executed
    exact Except.ok.inj executed
  have dispatch : c₃.work ≤ c₃.stageDispatch.work :=
    (show Runs S c₃.view c₃.stageDispatch.view from dispatchLoop_runs).work_le
  have fetch : c₃.stageDispatch.work ≤ c'.work := (stageFetch_runs fetched).work_le
  by_cases empty : c.sq = []
  case neg =>
    have steady₃ : Steady c₃ := fireLsuLoop_steady (fireMul_steady (fireAlu_steady steady₁)) scheduled
    have stirs := stageSchedule_stirs steady₁ idle staffed empty room takes scheduled
    have busy := (stirs_iff steady₃).mp stirs
    right
    left
    rw [(stageFetch_same fetched).2, stageDispatch, dispatchLoop_units]
    exact busy
  have rob : c.rob.count = 0 := by
    rcases head with none | unready
    · exact none
    · by_contra held
      cases unready.symm.trans (steady.rob_ready empty held)
  obtain rfl : { c with stats } = c₃ := by
    rw [stageSchedule_idle (c := { c with stats }) empty] at scheduled
    exact Except.ok.inj scheduled
  by_cases dispq : c.dispq = []
  case neg =>
    left
    have works := stageDispatch_works (c := { c with stats }) usable.fetchWidth dispq
      (by simpa [empty] using usable.schedq) (by
        have capacity : c.rob.capacity = c.cfg.robEntries := fits.rob
        simpa [CircularBuffer.full, rob, capacity] using usable.robEntries.symm)
    exact Nat.lt_of_lt_of_le works fetch
  rw [stageDispatch_idle (c := { c with stats }) dispq] at fetched
  have unblocked : c.inMispred = false := by
    by_contra blocked
    have blocked : c.inMispred = true := by simpa using blocked
    obtain ⟨inst, mem, -⟩ := settled.guilty blocked
    have nothing : c.pipe.inFlight = [] := by
      have none : c.rob.toList = [] := CircularBuffer.toList_eq_nil.mpr rob
      have all : c.pipe.inFlight = c.rob.toList.map (·.inst) ++ c.dispq := rfl
      rw [all, none, dispq]
      rfl
    rw [nothing] at mem
    cases mem
  have room : c.dispq.length < c.cfg.dispqCapacity := by
    rw [dispq]
    exact Nat.pos_of_ne_zero usable.dispqCapacity
  rcases stageFetch_works (c := { c with stats }) usable.fetchWidth unblocked room ungated fetched with
    works | ⟨ended, dispq', rob', sq'⟩
  · exact .inl works
  · right
    right
    exact drained_iff.mpr ⟨ended, dispq'.trans dispq, (congrArg CircularBuffer.count rob').trans rob, sq'.trans empty⟩

end Core

end Ooo
