import MulticoreSim.Ooo.Dependences

/-! # Memory operations in program order

A memory operation goes to a load-store unit when nothing older in the scheduling
queue stands in its way, and stays in the queue until its unit has written it back.
So a store meets no other memory operation in the units, and a request that must
come first has been completed before the later one is issued.
-/

namespace Ooo

/-! ## What keeps a memory operation back -/

/-- A load is kept back by older stores, a store by older loads and stores. -/
def Conflict (older younger : Inst) : Prop :=
  if younger.opcode = .load then older.opcode = .store else older.opcode.isMem = true

theorem conflict_of_store {older younger : Inst} (mem : older.opcode.isMem = true)
    (store : older.opcode = .store ∨ younger.opcode = .store) : Conflict older younger := by
  unfold Conflict
  split
  · next load => exact store.resolve_right fun store => by simp [load] at store
  · exact mem

/-- Only loads do not stand in each other's way. -/
theorem loads_of_clear {older younger : Inst} (mem : older.opcode.isMem = true)
    (mem' : younger.opcode.isMem = true) (clear : ¬Conflict older younger) :
    older.opcode = .load ∧ younger.opcode = .load := by
  have plain : ¬(older.opcode = .store ∨ younger.opcode = .store) := fun store =>
    clear (conflict_of_store mem store)
  rw [not_or] at plain
  simp only [Opcode.isMem, decide_eq_true_eq] at mem mem'
  exact ⟨mem.resolve_right plain.1, mem'.resolve_right plain.2⟩

theorem ambiguous_eq_false {sq : List SchedEntry} {e : SchedEntry} :
    ambiguous sq e = false ↔
      ∀ o ∈ sq, o.inst.dynCount < e.inst.dynCount → ¬Conflict o.inst e.inst := by
  unfold ambiguous Conflict
  rw [List.any_eq_false]
  refine forall₂_congr fun o _ => ?_
  split <;> simp

/-- A queue whose instructions were there before keeps nothing more back. -/
theorem ambiguous_mono {sq sq' : List SchedEntry} {e e' : SchedEntry} (same : e'.inst = e.inst)
    (fewer : ∀ o' ∈ sq', ∃ o ∈ sq, o.inst = o'.inst) (clear : ambiguous sq e = false) :
    ambiguous sq' e' = false := by
  rw [ambiguous_eq_false] at clear ⊢
  intro o' mem' older
  obtain ⟨o, mem, inst⟩ := fewer o' mem'
  rw [same, ← inst] at older ⊢
  exact clear o mem older

/-! ## Pointers and busy entries -/

namespace Pipeline

/-- The units point to the busy entries. -/
def Held (p : Pipeline) : Prop :=
  p.pointers = ((p.sq.filter (·.busy)).map (·.destTag) : List Nat)

variable {p p' : Pipeline}

theorem unique_tag {sq : List SchedEntry} (nodup : (sq.map (·.destTag)).Nodup) {e e' : SchedEntry}
    (mem : e ∈ sq) (mem' : e' ∈ sq) (same : e.destTag = e'.destTag) : e = e' :=
  List.inj_on_of_nodup_map nodup mem mem' same

theorem busy_tags_markBusy {sq : List SchedEntry} {e : SchedEntry}
    (nodup : (sq.map (·.destTag)).Nodup) (mem : e ∈ sq) (idle : e.busy = false) :
    ((markBusy sq e.destTag).filter (·.busy)).map (·.destTag) |>.Perm
      (e.destTag :: (sq.filter (·.busy)).map (·.destTag)) := by
  induction sq with
  | nil => cases mem
  | cons x rest ih =>
      unfold markBusy Memory.modifyFirst
      by_cases here : x.destTag = e.destTag
      · have same := unique_tag nodup List.mem_cons_self mem here
        subst same
        simp [idle]
      · have later : e ∈ rest := by
          rcases List.mem_cons.mp mem with rfl | later
          · exact absurd rfl here
          · exact later
        rw [List.map_cons, List.nodup_cons] at nodup
        have tail := ih nodup.2 later
        rw [if_neg (by simpa using here)]
        by_cases busy : x.busy = true
        · rw [List.filter_cons_of_pos busy, List.filter_cons_of_pos busy, List.map_cons, List.map_cons]
          exact (tail.cons _).trans (.swap ..)
        · rw [List.filter_cons_of_neg busy, List.filter_cons_of_neg busy]
          exact tail

theorem Held.step (held : p.Held) (linked : p.Linked) (order : p.InOrder) (step : Step p p') :
    p'.Held := by
  have nodup := linked.queue_nodup order
  cases step with
  | retire | flush | call | fetch => exact held
  | dispatch =>
      unfold Held
      dsimp only
      rw [List.filter_append, held]
      simp
  | @fire oldest mem canFire =>
      have idle : oldest.busy = false := by
        simp only [SchedEntry.canFire, Bool.and_eq_true, Bool.not_eq_true'] at canFire
        exact canFire.1.1
      unfold Held
      dsimp only
      rw [Multiset.coe_eq_coe.mpr (busy_tags_markBusy nodup mem idle), held]
      rfl
  | @writeback tag sched pointers found points =>
      obtain ⟨mem, same⟩ := entryOf_spec found
      subst same
      have busyNodup : ((p.sq.filter (·.busy)).map (·.destTag)).Nodup :=
        nodup.sublist (List.filter_sublist.map _)
      unfold Held at held ⊢
      dsimp only
      rw [eraseByTag_wakeDependents nodup]
      have erased : pointers = p.pointers.erase sched.destTag := by
        rw [points, Multiset.singleton_add, Multiset.erase_cons_head]
      rw [erased, held, Multiset.coe_erase, busyNodup.erase_eq_filter]
      simp only [List.filter_map, List.map_map, List.filter_filter]
      refine congrArg (fun l : List SchedEntry => ((l.map (·.destTag) : List Nat) : Multiset Nat))
        (List.filter_congr fun e _ => ?_)
      by_cases here : e.destTag = sched.destTag
      · simp [here]
      · simp [here, SchedEntry.wake]

/-- What is older and stands in the way of an entry that nothing in the queue keeps back
    has been written back. -/
theorem Sound.older_done (sound : p.Sound) {s : SchedEntry} (mem : s ∈ p.sq)
    (clear : ambiguous p.sq s = false) {older : Inst} (fetched : older ∈ Log.fetched p.log)
    (less : older.dynCount < s.inst.dynCount) (conflict : Conflict older s.inst) :
    .wroteBack older ∈ p.log := by
  have here := sound.linked.dispatched sound.order mem
  have increasing := sound.order.fetched_increasing
  rw [sound.order.fetched] at fetched increasing
  rcases List.mem_append.mp fetched with gone | waiting
  · obtain ⟨d, dispatched, rfl⟩ := List.mem_map.mp gone
    refine sound.renamed.done d dispatched fun ⟨o, queued, tag⟩ => ?_
    have same : o.key = d := sound.linked.tag_unique (sound.linked.dispatched sound.order queued)
      dispatched tag
    rw [← same] at less conflict
    exact ambiguous_eq_false.mp clear o queued less conflict
  · have younger := (List.pairwise_append.mp increasing).2.2 s.inst
      (List.mem_map_of_mem (f := Prod.fst) here) older waiting
    exact absurd younger (Nat.lt_asymm less)

/-- What the cache was called for had been fetched, and what is older and must come first
    had been written back. -/
def Calls (log : List Event) : Prop :=
  ∀ earlier inst later, log = earlier ++ .called inst :: later →
    inst ∈ Log.fetched earlier ∧ ∀ older ∈ Log.fetched earlier, older.dynCount < inst.dynCount →
      Conflict older inst → .wroteBack older ∈ earlier

theorem Calls.snoc {log : List Event} {event : Event} (calls : Calls log)
    (last : ∀ inst, event = .called inst → inst ∈ Log.fetched log ∧
      ∀ older ∈ Log.fetched log, older.dynCount < inst.dynCount → Conflict older inst →
        .wroteBack older ∈ log) : Calls (log ++ [event]) := by
  intro earlier inst later split
  refine Log.each_snoc (P := fun earlier event => ∀ inst, event = .called inst →
    inst ∈ Log.fetched earlier ∧ ∀ older ∈ Log.fetched earlier, older.dynCount < inst.dynCount →
      Conflict older inst → .wroteBack older ∈ earlier) ?_ last earlier _ later split inst rfl
  intro earlier event later split inst here
  exact calls earlier inst later (here ▸ split)

theorem Calls.step (calls : Calls p.log) (sound : p.Sound) (step : Step p p') : Calls p'.log := by
  cases step with
  | retire | flush | writeback | fire | dispatch | fetch =>
      refine calls.snoc fun inst same => ?_
      cases same
  | call queued clear =>
      refine calls.snoc fun inst same => ?_
      cases same
      exact ⟨sound.linked.fetched sound.order queued, fun older => sound.older_done queued clear⟩

/-- A new entry is younger than the queue. -/
theorem Sound.younger (sound : p.Sound) {inst : Inst} {rest : List Inst} (next : p.dispq = inst :: rest)
    {s : SchedEntry} (mem : s ∈ p.sq) : s.inst.dynCount < inst.dynCount := by
  have increasing := sound.order.fetched_increasing
  rw [sound.order.fetched, next] at increasing
  exact (List.pairwise_append.mp increasing).2.2 s.inst
    (List.mem_map_of_mem (f := Prod.fst) (sound.linked.dispatched sound.order mem)) inst
    List.mem_cons_self

end Pipeline

/-! ## Units and queue -/

/-- The entry is a memory operation that was placed in a unit. -/
def SchedEntry.Issued (e : SchedEntry) : Prop := e.busy = true ∧ e.inst.opcode.isMem = true

/-- The load-store units hold the issued entries of the queue, and nothing in the queue
    stands in the way of one of them. -/
structure LoadStore (sq : List SchedEntry) (lsu : List (Option LsuUnit)) : Prop where
  clear : ∀ e ∈ sq, e.Issued → ambiguous sq e = false
  units : ∀ u, some u ∈ lsu → ∃ e ∈ sq, e.destTag = u.sched ∧ e.Issued ∧
    u.isLoad = decide (e.inst.opcode = .load)
  entries : ∀ e ∈ sq, e.Issued → ∃ u, some u ∈ lsu ∧ u.sched = e.destTag

namespace LoadStore

variable {sq : List SchedEntry} {lsu lsu' : List (Option LsuUnit)} {t : Nat}

/-- A broadcast takes an entry out, and its unit with it. -/
theorem broadcast (loadStore : LoadStore sq lsu) (nodup : (sq.map (·.destTag)).Nodup)
    (left : ∀ u, some u ∈ lsu' → some u ∈ lsu ∧ u.sched ≠ t)
    (kept : ∀ u, some u ∈ lsu → u.sched ≠ t → some u ∈ lsu') :
    LoadStore (eraseByTag (wakeDependents sq t) t) lsu' := by
  have from_ : ∀ e' ∈ eraseByTag (wakeDependents sq t) t, ∃ e ∈ sq, e.destTag ≠ t ∧ e.wake t = e' :=
    fun e' mem => (mem_broadcast nodup).mp mem
  refine ⟨fun e' mem' issued => ?_, fun u mem => ?_, fun e' mem' issued => ?_⟩
  · obtain ⟨e, mem, -, rfl⟩ := from_ e' mem'
    refine ambiguous_mono (e := e) rfl (fun o' mem' => ?_) (loadStore.clear e mem issued)
    obtain ⟨o, mem, -, rfl⟩ := from_ o' mem'
    exact ⟨o, mem, rfl⟩
  · obtain ⟨held, other⟩ := left u mem
    obtain ⟨e, queued, tag, issued, isLoad⟩ := loadStore.units u held
    exact ⟨e.wake t, (mem_broadcast nodup).mpr ⟨e, queued, tag.trans_ne other, rfl⟩, tag, issued, isLoad⟩
  · obtain ⟨e, mem, other, rfl⟩ := from_ e' mem'
    obtain ⟨u, held, tag⟩ := loadStore.entries e mem issued
    exact ⟨u, kept u held (tag.trans_ne other), tag⟩

theorem mem_markBusy (nodup : (sq.map (·.destTag)).Nodup) {oldest e' : SchedEntry} (queued : oldest ∈ sq)
    (mem : e' ∈ markBusy sq oldest.destTag) : e' ∈ sq ∨ e' = { oldest with busy := true } := by
  refine (Memory.mem_modifyFirst mem).imp_right fun ⟨e, mem, tag, eq⟩ => ?_
  rw [eq, Pipeline.unique_tag nodup mem queued (by simpa using tag)]

/-- An entry that goes to a unit of another kind. -/
theorem fireOther (loadStore : LoadStore sq lsu) (nodup : (sq.map (·.destTag)).Nodup)
    {oldest : SchedEntry} (queued : oldest ∈ sq) (other : oldest.inst.opcode.isMem = false) :
    LoadStore (markBusy sq oldest.destTag) lsu := by
  have old : ∀ e' ∈ markBusy sq oldest.destTag, e'.Issued → e' ∈ sq := fun e' mem issued =>
    (mem_markBusy nodup queued mem).resolve_right fun same => by
      rw [same] at issued
      exact absurd issued.2 (by simp [other])
  have fewer : ∀ o' ∈ markBusy sq oldest.destTag, ∃ o ∈ sq, o.inst = o'.inst := by
    intro o' mem
    rcases mem_markBusy nodup queued mem with mem | rfl
    · exact ⟨o', mem, rfl⟩
    · exact ⟨oldest, queued, rfl⟩
  refine ⟨fun e mem issued => ?_, fun u held => ?_, fun e mem issued => ?_⟩
  · exact ambiguous_mono rfl fewer (loadStore.clear e (old e mem issued) issued)
  · obtain ⟨e, mem, tag, issued, isLoad⟩ := loadStore.units u held
    refine ⟨e, Memory.modifyFirst_keeps mem ?_, tag, issued, isLoad⟩
    by_contra same
    have same := Pipeline.unique_tag nodup mem queued (by simpa using same)
    rw [same] at issued
    exact absurd issued.2 (by simp [other])
  · exact loadStore.entries e (old e mem issued) issued

/-- A memory operation that nothing keeps back goes to a free load-store unit. -/
theorem fire (loadStore : LoadStore sq lsu) (nodup : (sq.map (·.destTag)).Nodup) {oldest : SchedEntry}
    (queued : oldest ∈ sq) (idle : oldest.busy = false) (isMem : oldest.inst.opcode.isMem = true)
    (clear : ambiguous sq oldest = false) (free : lsu.any (·.isNone) = true) {u : LsuUnit}
    (sched : u.sched = oldest.destTag) (isLoad : u.isLoad = decide (oldest.inst.opcode = .load)) :
    LoadStore (markBusy sq oldest.destTag) (Memory.modifyFirst (·.isNone) (fun _ => some u) lsu) := by
  have fewer : ∀ o' ∈ markBusy sq oldest.destTag, ∃ o ∈ sq, o.inst = o'.inst := by
    intro o' mem
    rcases mem_markBusy nodup queued mem with mem | rfl
    · exact ⟨o', mem, rfl⟩
    · exact ⟨oldest, queued, rfl⟩
  have marked : { oldest with busy := true } ∈ markBusy sq oldest.destTag := by
    obtain ⟨e, mem, tag, done⟩ := Memory.exists_modifyFirst (p := fun e => e.destTag = oldest.destTag)
      (f := fun e : SchedEntry => { e with busy := true }) queued (by simp)
    rw [Pipeline.unique_tag nodup mem queued (by simpa using tag)] at done
    exact done
  have placed : some u ∈ Memory.modifyFirst (·.isNone) (fun _ => some u) lsu := by
    obtain ⟨slot, mem, empty⟩ := List.any_eq_true.mp free
    obtain ⟨-, -, -, done⟩ := Memory.exists_modifyFirst (p := fun u : Option LsuUnit => u.isNone)
      (f := fun _ => some u) mem empty
    exact done
  refine ⟨fun e mem issued => ?_, fun v held => ?_, fun e mem issued => ?_⟩
  · rcases mem_markBusy nodup queued mem with old | rfl
    · exact ambiguous_mono rfl fewer (loadStore.clear e old issued)
    · exact ambiguous_mono (e := oldest) rfl fewer clear
  · rcases Memory.mem_modifyFirst held with old | ⟨-, -, -, same⟩
    · obtain ⟨e, mem, tag, issued, load⟩ := loadStore.units v old
      refine ⟨e, Memory.modifyFirst_keeps mem ?_, tag, issued, load⟩
      by_contra same
      have same := Pipeline.unique_tag nodup mem queued (by simpa using same)
      rw [same] at issued
      exact absurd issued.1 (by simp [idle])
    · cases same
      exact ⟨_, marked, sched.symm, ⟨rfl, isMem⟩, isLoad⟩
  · rcases mem_markBusy nodup queued mem with old | rfl
    · obtain ⟨v, held, tag⟩ := loadStore.entries e old issued
      exact ⟨v, Memory.modifyFirst_keeps held rfl, tag⟩
    · exact ⟨u, placed, sched⟩

theorem dispatch (loadStore : LoadStore sq lsu) {e : SchedEntry} (idle : e.busy = false)
    (younger : ∀ s ∈ sq, s.inst.dynCount < e.inst.dynCount) : LoadStore (sq ++ [e]) lsu := by
  have old : ∀ s ∈ sq ++ [e], s.Issued → s ∈ sq := fun s mem issued =>
    (List.mem_append.mp mem).resolve_right fun last => by
      rw [List.mem_singleton.mp last] at issued
      exact absurd issued.1 (by simp [idle])
  refine ⟨fun s mem issued => ?_, fun u held => ?_, fun s mem issued => ?_⟩
  · have before := old s mem issued
    rw [ambiguous_eq_false]
    intro o mem' less
    rcases List.mem_append.mp mem' with mem' | last
    · exact ambiguous_eq_false.mp (loadStore.clear s before issued) o mem' less
    · rw [List.mem_singleton.mp last] at less
      exact absurd less (Nat.lt_asymm (younger s before))
  · obtain ⟨s, mem, rest⟩ := loadStore.units u held
    exact ⟨s, List.mem_append_left _ mem, rest⟩
  · exact loadStore.entries s (old s mem issued) issued

end LoadStore

/-! ## Cores -/

namespace Core

variable {S : Surroundings} {c c' : Core S}

structure Steady (c : Core S) : Prop where
  sound : c.pipe.Sound
  held : c.pipe.Held
  loadStore : LoadStore c.sq c.units.lsu

theorem Steady.of_runs (steady : Steady c) (runs : Runs S c.view c'.view)
    (loadStore : LoadStore c'.sq c'.units.lsu) : Steady c' := by
  obtain ⟨sound, held⟩ := runs.keeps_pipe (I := fun p => p.Sound ∧ p.Held)
    (fun p p' inv step => ⟨inv.1.step step, inv.2.step inv.1.linked inv.1.order step⟩)
    ⟨steady.sound, steady.held⟩
  exact ⟨sound, held, loadStore⟩

theorem Steady.nodup (steady : Steady c) : (c.sq.map (·.destTag)).Nodup :=
  steady.sound.linked.queue_nodup steady.sound.order

theorem mem_sum_map {α : Type} {g : α → Multiset Nat} {l : List α} {x : α} (mem : x ∈ l) {t : Nat}
    (here : t ∈ g x) : t ∈ (l.map g).sum := by
  induction l with
  | nil => cases mem
  | cons y rest ih =>
      rw [List.map_cons, List.sum_cons, Multiset.mem_add]
      rcases List.mem_cons.mp mem with rfl | mem
      · exact .inl here
      · exact .inr (ih mem)

theorem lsu_mem_tags {units : Units} {u : LsuUnit} (mem : some u ∈ units.lsu) :
    u.sched ∈ units.tags := by
  refine Multiset.mem_add.mpr (.inr (mem_sum_map mem ?_))
  exact Multiset.mem_singleton_self _

/-- A unit points into the queue. -/
theorem queued_of_held (held : c.pipe.Held) {u : LsuUnit} (mem : some u ∈ c.units.lsu) :
    ∃ e ∈ c.sq, e.destTag = u.sched := by
  have points : u.sched ∈ c.pipe.pointers := lsu_mem_tags mem
  rw [held, Multiset.mem_coe] at points
  obtain ⟨e, mem, tag⟩ := List.mem_map.mp points
  exact ⟨e, List.mem_of_mem_filter mem, tag⟩

/-- A writeback, after which the units that are left point to what is left. -/
theorem Steady.wroteBack (steady : Steady c) {t : Nat} (runs : Runs S c.view c'.view)
    (sq : c'.sq = eraseByTag (wakeDependents c.sq t) t)
    (fewer : ∀ u, some u ∈ c'.units.lsu → some u ∈ c.units.lsu)
    (kept : ∀ u, some u ∈ c.units.lsu → u.sched ≠ t → some u ∈ c'.units.lsu) : Steady c' := by
  have held := (runs.keeps_pipe (I := fun p => p.Sound ∧ p.Held)
    (fun p p' inv step => ⟨inv.1.step step, inv.2.step inv.1.linked inv.1.order step⟩)
    ⟨steady.sound, steady.held⟩).2
  refine steady.of_runs runs ?_
  rw [sq]
  refine steady.loadStore.broadcast steady.nodup (fun u mem => ⟨fewer u mem, ?_⟩) kept
  obtain ⟨e, queued, tag⟩ := queued_of_held held mem
  rw [sq] at queued
  obtain ⟨s, -, other, rfl⟩ := (mem_broadcast steady.nodup).mp queued
  rw [← tag]
  exact other

theorem completeAlu_steady {unit : Nat} (steady : Steady c) (ran : c.completeAlu unit = .ok c') :
    Steady c' := by
  have runs := completeAlu_runs ran
  simp only [completeAlu] at ran
  split at ran
  · split at ran
    · cases ran
    · next wrote =>
        obtain ⟨sched, found, rfl⟩ := writeback_eq wrote
        cases ran
        exact steady.wroteBack runs rfl (fun u => id) fun u mem _ => mem
  · cases ran
    exact steady

theorem completeMul_steady {unit : Nat} (steady : Steady c) (ran : c.completeMul unit = .ok c') :
    Steady c' := by
  have runs := completeMul_runs ran
  simp only [completeMul] at ran
  split at ran
  · split at ran
    · cases ran
    · next wrote =>
        obtain ⟨sched, found, rfl⟩ := writeback_eq wrote
        cases ran
        exact steady.wroteBack runs rfl (fun u => id) fun u mem _ => mem
  · cases ran
    exact steady

theorem pollLsu_steady {unit : Nat} (steady : Steady c) (ran : c.pollLsu unit = .ok c') :
    Steady c' := by
  have runs := pollLsu_runs ran
  simp only [pollLsu] at ran
  split at ran
  · next u here =>
      split at ran
      · split at ran
        · cases ran
        · next wrote =>
            obtain ⟨sched, found, rfl⟩ := writeback_eq wrote
            cases ran
            refine steady.wroteBack runs rfl (fun v mem => ?_) fun v mem other => ?_
            · rcases List.mem_or_eq_of_mem_set mem with mem | none
              · exact mem
              · cases none
            · obtain ⟨j, at_j⟩ := List.mem_iff_getElem?.mp mem
              refine List.mem_iff_getElem?.mpr ⟨j, ?_⟩
              rw [List.getElem?_set_ne, at_j]
              rintro rfl
              rw [here] at at_j
              cases at_j
              exact other (entryOf_spec found).2.symm
      · cases ran
        exact steady
  · cases ran
    exact steady

theorem stageExec_steady (steady : Steady c) (ran : c.stageExec = .ok c') : Steady c' := by
  simp only [stageExec, Bind.bind, Except.bind] at ran
  split at ran
  · cases ran
  · next aluDone =>
      split at ran
      · cases ran
      · next c₁ _ c₂ mulDone =>
          have before := overUnits_keeps (fun _ _ _ => completeMul_steady)
            (overUnits_keeps (fun _ _ _ => completeAlu_steady) steady aluDone) mulDone
          have shifted : Runs S c₂.view c₂.shiftMul.view := by
            rw [shiftMul_view (mul_cleared mulDone)]
          exact overUnits_keeps (fun _ _ _ => pollLsu_steady)
            (before.of_runs shifted before.loadStore) ran

theorem trainPredictor_same (c : Core S) (inst : Inst) :
    (c.trainPredictor inst).sq = c.sq ∧ (c.trainPredictor inst).units = c.units := by
  unfold trainPredictor
  split <;> exact ⟨rfl, rfl⟩

theorem retireStep_same {mispred : Bool} (ran : c.retireStep = .ok (mispred, c')) :
    c'.sq = c.sq ∧ c'.units = c.units := by
  have trained := c.trainPredictor_same c.rob.headEntry.inst
  simp only [retireStep] at ran
  split at ran
  · cases ran
    exact trained
  · split at ran
    · cases ran
      exact trained
    · split at ran
      · cases ran
      · cases ran
        exact trained

theorem retireLoop_same {turns retired : Nat} {mispred : Bool}
    (ran : retireLoop turns c = .ok (retired, mispred, c')) : c'.sq = c.sq ∧ c'.units = c.units := by
  induction turns generalizing c retired with
  | zero =>
      cases ran
      exact ⟨rfl, rfl⟩
  | succ turns ih =>
      simp only [retireLoop] at ran
      split at ran
      · cases ran
        exact ⟨rfl, rfl⟩
      · split at ran
        · cases ran
        · next stepped =>
            cases ran
            exact retireStep_same stepped
        · next stepped =>
            split at ran
            · cases ran
            · next looped =>
                cases ran
                obtain ⟨sq, units⟩ := ih looped
                obtain ⟨sq', units'⟩ := retireStep_same stepped
                exact ⟨sq.trans sq', units.trans units'⟩

theorem stageStateUpdate_steady {mispred : Bool} (steady : Steady c)
    (ran : c.stageStateUpdate = .ok (mispred, c')) : Steady c' := by
  have runs := stageStateUpdate_runs ran
  simp only [stageStateUpdate] at ran
  split at ran
  · cases ran
  · next looped =>
      cases ran
      obtain ⟨sq, units⟩ := retireLoop_same looped
      refine steady.of_runs runs ?_
      dsimp only
      rw [sq, units]
      exact steady.loadStore

theorem fireInto_steady {runs : Opcode → Bool} {free : Units → Bool} {place : Units → Nat → Units}
    {avail : Nat} (other : ∀ op, runs op = true → op.isMem = false)
    (places : ∀ units tag, free units = true → (place units tag).tags = {tag} + units.tags)
    (lsu : ∀ units tag, (place units tag).lsu = units.lsu) (steady : Steady c) :
    Steady (fireInto runs free place avail c) := by
  induction avail generalizing c with
  | zero => exact steady
  | succ avail ih =>
      unfold fireInto
      split
      · exact steady
      · next oldest picked =>
          obtain ⟨queued, canFire, op⟩ := pickOldest_spec picked
          refine ih (steady.of_runs (fireOne_runs places queued canFire) ?_)
          split
          · dsimp only
            rw [lsu]
            exact steady.loadStore.fireOther steady.nodup queued (other _ op)
          · exact steady.loadStore

theorem fireAlu_steady (steady : Steady c) : Steady c.fireAlu := by
  refine fireInto_steady (fun op runs => ?_) placeAlu_tags (fun _ _ => rfl) steady
  cases op <;> simp [Opcode.isMem] at runs ⊢

theorem fireMul_steady (steady : Steady c) : Steady c.fireMul := by
  refine fireInto_steady (fun op runs => ?_) placeMul_tags (fun _ _ => rfl) steady
  cases op <;> simp [Opcode.isMem] at runs ⊢

theorem fireLsuOne_steady {oldest : SchedEntry} (steady : Steady c) (picked : Picked c oldest)
    (isFree : c.units.lsu.any (·.isNone) = true) {mshrId : Nat} {outside : S.State}
    (issued : S.l1Issue c.outside (c.memReq oldest.inst) = .ok (some mshrId, outside)) :
    Steady { c with
      outside
      units := { c.units with
        lsu := Memory.modifyFirst (·.isNone)
          (fun _ => some { isLoad := oldest.inst.opcode = .load, mshrId, sched := oldest.destTag })
          c.units.lsu }
      sq := markBusy c.sq oldest.destTag
      log := c.log ++ [.called oldest.inst] ++ [.fired oldest.inst] } := by
  have idle : oldest.busy = false := by
    have canFire := picked.canFire
    simp only [SchedEntry.canFire, Bool.and_eq_true, Bool.not_eq_true'] at canFire
    exact canFire.1.1
  exact steady.of_runs (fireLsuOne_runs picked isFree issued)
    (steady.loadStore.fire steady.nodup picked.queued idle picked.isMem picked.clear isFree rfl rfl)

theorem fireLsuLoop_steady {avail : Nat} {storeFired : Bool} (steady : Steady c)
    (ran : fireLsuLoop avail storeFired c = .ok c') : Steady c' := by
  induction avail generalizing c storeFired with
  | zero =>
      cases ran
      exact steady
  | succ avail ih =>
      simp only [fireLsuLoop] at ran
      split at ran
      · cases ran
        exact steady
      · next oldest picked =>
          split at ran
          · cases ran
            exact steady
          · split at ran
            · cases ran
              exact steady
            · split at ran
              · exact ih steady ran
              · next isFree =>
                  split at ran
                  · cases ran
                  · next issued =>
                      cases ran
                      exact steady.of_runs (called_runs (picked_of picked) issued) steady.loadStore
                  · next issued =>
                      exact ih (fireLsuOne_steady steady (picked_of picked) (by simpa using isFree)
                        issued) ran

theorem dispatchLoop_steady {width : Nat} (steady : Steady c) : Steady (dispatchLoop width c) := by
  induction width generalizing c with
  | zero => exact steady
  | succ width ih =>
      unfold dispatchLoop
      split
      · exact steady
      · next inst rest next =>
          split
          · exact steady
          · next room =>
              refine ih (steady.of_runs (dispatchOne_runs next room) ?_)
              exact steady.loadStore.dispatch rfl fun s mem => steady.sound.younger next mem

theorem fetchLoop_same {width : Nat} {fetched : Bool} {stall : Option FetchStall}
    (ran : fetchLoop width fetched c = .ok (stall, c')) : c'.sq = c.sq ∧ c'.units = c.units := by
  induction width generalizing c fetched with
  | zero =>
      cases ran
      exact ⟨rfl, rfl⟩
  | succ width ih =>
      simp only [fetchLoop] at ran
      split at ran
      · cases ran
        exact ⟨rfl, rfl⟩
      · split at ran
        · cases ran
        · split at ran
          all_goals
            cases ran
            exact ⟨rfl, rfl⟩
        · split at ran
          · cases ran
            exact ⟨rfl, rfl⟩
          · have same := ih ran
            exact same

theorem stageFetch_steady (steady : Steady c) (ran : c.stageFetch = .ok c') : Steady c' := by
  have runs := stageFetch_runs ran
  simp only [stageFetch] at ran
  split at ran
  · cases ran
    exact steady.of_runs runs steady.loadStore
  · split at ran
    · cases ran
      exact steady.of_runs runs steady.loadStore
    · split at ran
      · cases ran
      · next looped =>
          cases ran
          obtain ⟨sq, units⟩ := fetchLoop_same looped
          refine steady.of_runs runs ?_
          dsimp only
          rw [sq, units]
          exact steady.loadStore

theorem stages_steady (steady : Steady c) (ran : c.stages = .ok c') : Steady c' := by
  simp only [stages, Bind.bind, Except.bind] at ran
  split at ran
  · cases ran
  · next retired =>
      have updated := stageStateUpdate_steady steady retired
      split at ran
      · cases ran
        exact ⟨updated.sound, updated.held, updated.loadStore⟩
      · split at ran
        · cases ran
        · next executed =>
            split at ran
            · cases ran
            · next scheduled =>
                have fired := fireMul_steady (fireAlu_steady (stageExec_steady updated executed))
                exact stageFetch_steady (dispatchLoop_steady (fireLsuLoop_steady fired scheduled)) ran

theorem watchdog_same (c : Core S) : c.watchdog.2.sq = c.sq ∧ c.watchdog.2.units = c.units := by
  simp only [watchdog]
  repeat' split
  all_goals exact ⟨rfl, rfl⟩

theorem tick_steady {more : Bool} (steady : Steady c) (ran : c.tick = .ok (more, c')) :
    Steady c' := by
  have runs := tick_runs ran
  obtain ⟨staged, done, rfl, -⟩ := tick_eq ran
  obtain ⟨sq, units⟩ := staged.closeCycle.watchdog_same
  refine steady.of_runs runs ?_
  rw [sq, units]
  exact (stages_steady steady done).loadStore

/-! ## Units -/

theorem lsu_apart {lsu : List (Option LsuUnit)}
    (nodup : (lsu.map fun u : Option LsuUnit => u.elim (0 : Multiset Nat) fun u => {u.sched}).sum.Nodup) :
    lsu.Pairwise fun x y => ∀ u v, x = some u → y = some v → u.sched ≠ v.sched := by
  induction lsu with
  | nil => exact .nil
  | cons x rest ih =>
      rw [List.map_cons, List.sum_cons, Multiset.nodup_add] at nodup
      refine List.pairwise_cons.mpr ⟨fun y mem u v left right same => ?_, ih nodup.2.1⟩
      subst left right
      have here : u.sched ∈
          (rest.map fun u : Option LsuUnit => u.elim (0 : Multiset Nat) fun u => {u.sched}).sum := by
        rw [same]
        exact mem_sum_map mem (Multiset.mem_singleton_self _)
      exact Multiset.disjoint_left.mp nodup.2.2 (Multiset.mem_singleton_self _) here

/-- Two busy load-store units hold loads. -/
theorem Steady.both_load (steady : Steady c) {i j : Nat} {u v : LsuUnit} (less : i < j)
    (left : c.units.lsu[i]? = some (some u)) (right : c.units.lsu[j]? = some (some v)) :
    u.isLoad = true ∧ v.isLoad = true := by
  have busyNodup : c.units.tags.Nodup := by
    have held := steady.held
    unfold Pipeline.Held at held
    change c.pipe.pointers.Nodup
    rw [held, Multiset.coe_nodup]
    exact steady.nodup.sublist (List.filter_sublist.map _)
  have apart := lsu_apart (Multiset.nodup_add.mp busyNodup).2.1
  obtain ⟨i_lt, at_i⟩ := List.getElem?_eq_some_iff.mp left
  obtain ⟨j_lt, at_j⟩ := List.getElem?_eq_some_iff.mp right
  have tags := List.pairwise_iff_getElem.mp apart i j i_lt j_lt less u v at_i at_j
  obtain ⟨e, mem, tag, issued, load⟩ := steady.loadStore.units u (List.mem_of_getElem? left)
  obtain ⟨f, mem', tag', issued', load'⟩ := steady.loadStore.units v (List.mem_of_getElem? right)
  rw [load, load', decide_eq_true_eq, decide_eq_true_eq]
  have linked := steady.sound.linked
  have order := steady.sound.order
  rw [← tag, ← tag'] at tags
  rcases Nat.lt_or_gt_of_ne tags with before | before
  · have older := (linked.older_iff order (linked.dispatched order mem)
      (linked.dispatched order mem')).mpr before
    exact loads_of_clear issued.2 issued'.2
      (ambiguous_eq_false.mp (steady.loadStore.clear f mem' issued') e mem older)
  · have older := (linked.older_iff order (linked.dispatched order mem')
      (linked.dispatched order mem)).mpr before
    exact (loads_of_clear issued'.2 issued.2
      (ambiguous_eq_false.mp (steady.loadStore.clear e mem issued) f mem' older)).symm

end Core

/-! ## Runs -/

variable {S : Surroundings} {cfg : OooConfig} {outside : S.State} {tid : Nat} {c : Core S}

theorem steady_run (run : (machine S).Reachable (Core.make cfg outside tid) c) : c.Steady := by
  refine run.invariant ?_ fun c action c' steady _ stepped => ?_
  · have sq : (Core.make cfg outside tid : Core S).sq = [] := rfl
    refine ⟨sound_run .start, ?_, ?_, fun u held => ?_, ?_⟩
    · simp [Pipeline.Held, Core.pipe, Core.make, Units.tags, MulUnit.tags]
    · simp [sq]
    · cases List.eq_of_mem_replicate held
    · simp [sq]
  · cases action with
    | tick =>
        simp only [machine, Except.map] at stepped
        split at stepped
        · cases stepped
        · next ticked =>
            cases stepped
            exact Core.tick_steady steady ticked
    | outside state =>
        cases stepped
        exact ⟨steady.sound, steady.held, steady.loadStore⟩

theorem calls_run (run : (machine S).Reachable (Core.make cfg outside tid) c) : Pipeline.Calls c.log := by
  have both : c.pipe.Sound ∧ Pipeline.Calls c.pipe.log := by
    refine Core.pipe_invariant (I := fun p => p.Sound ∧ Pipeline.Calls p.log) ⟨sound_run .start, ?_⟩
      (fun p p' inv step => ?_) run
    · intro earlier inst later split
      have length := congrArg List.length split
      simp [Core.make, Core.pipe] at length
    · exact ⟨inv.1.step step, inv.2.step inv.1 step⟩
  exact both.2

/-- When the cache is called for a memory operation, every older one that is to come
    first, that is, of which one of the two is a store, has been written back by its
    load-store unit; the units hold the operations that were issued and have not been
    written back, and no store shares them with another memory operation. (A call that
    throws ends the program; a cache that refuses instead leaves it in the history.) -/
theorem memory_program_order (run : (machine S).Reachable (Core.make cfg outside tid) c) :
    (∀ earlier younger later, c.log = earlier ++ .called younger :: later →
      ∀ older ∈ Log.fetched c.log, older.dynCount < younger.dynCount → older.opcode.isMem = true →
        older.opcode = .store ∨ younger.opcode = .store → .wroteBack older ∈ earlier) ∧
    (∀ e ∈ c.sq, e.busy = true → e.inst.opcode.isMem = true →
      ∃ u, some u ∈ c.units.lsu ∧ u.sched = e.destTag ∧ u.isLoad = decide (e.inst.opcode = .load)) ∧
    ∀ (i j : Nat) (u v : LsuUnit), i < j → c.units.lsu[i]? = some (some u) →
      c.units.lsu[j]? = some (some v) → u.isLoad = true ∧ v.isLoad = true := by
  have steady := steady_run run
  refine ⟨fun earlier younger later split older mem less isMem store => ?_, fun e mem busy isMem => ?_,
    fun i j u v less => steady.both_load less⟩
  · obtain ⟨fetched, done⟩ := calls_run run earlier younger later split
    have before := steady.sound.order.fetched_before split fetched mem less
    exact done older before less (conflict_of_store isMem store)
  · obtain ⟨u, held, tag⟩ := steady.loadStore.entries e mem ⟨busy, isMem⟩
    obtain ⟨f, mem', tag', -, load⟩ := steady.loadStore.units u held
    rw [Pipeline.unique_tag steady.nodup mem' mem (tag'.trans tag)] at load
    exact ⟨u, held, tag, load⟩

/-- A store before a load of another address. -/
def storeThenLoad (cycles : Nat) : Core listed :=
  (machine listed).attempt
    (Core.make {} [{ ip := 4, destinationMemory := [64] }, { ip := 8, sourceMemory := [128] }] 0)
    (List.replicate cycles .tick)

/-- The cache is called for the load in the fourth cycle, after seven events. -/
theorem memory_program_order_store_load : ∃ store load : Inst,
    (storeThenLoad 4).log.drop 7 = [.called load, .fired load] ∧ store.opcode = .store ∧
      .wroteBack store ∈ (storeThenLoad 4).log.take 7 := by
  have ordered := (memory_program_order
    (machine listed |>.reachable_attempt _ (List.replicate 4 .tick) : (machine listed).Reachable _
      (storeThenLoad 4))).1
  refine ⟨{ pc := 4, opcode := .store, memAddr := 64, dynCount := 1 },
    { pc := 8, opcode := .load, memAddr := 128, dynCount := 2 }, by decide +kernel, rfl, ?_⟩
  exact ordered ((storeThenLoad 4).log.take 7) { pc := 8, opcode := .load, memAddr := 128, dynCount := 2 }
    [.fired { pc := 8, opcode := .load, memAddr := 128, dynCount := 2 }] (by decide +kernel) _
    (by decide +kernel) (by decide) (by decide) (.inl rfl)

end Ooo
