import MulticoreSim.Library.Renaming
import MulticoreSim.Memory.Outstanding
import MulticoreSim.Ooo.InOrder

/-! # Register dependences

The scheduling queue holds the instructions of the reorder buffer that have no
result yet, in order. Table and operands name, for each register, the last writer
before them, and are ready exactly where that writer is no longer queued.
-/

namespace Ooo

open Renaming

def SchedEntry.key (e : SchedEntry) : Inst × Nat := (e.inst, e.destTag)

/-! ## Waking and erasing -/

section

variable {sq : List SchedEntry} {t : Nat} {s : SchedEntry}

@[simp] theorem wake_inst : (s.wake t).inst = s.inst := rfl

@[simp] theorem wake_destTag : (s.wake t).destTag = s.destTag := rfl

@[simp] theorem wake_robIdx : (s.wake t).robIdx = s.robIdx := rfl

@[simp] theorem wake_key : (s.wake t).key = s.key := rfl

@[simp] theorem SrcOperand.wake_tag (src : SrcOperand) : (src.wake t).tag = src.tag := by
  unfold SrcOperand.wake
  split <;> rfl

@[simp] theorem SrcOperand.wake_ready (src : SrcOperand) :
    (src.wake t).ready = (decide (src.tag = t) || src.ready) := by
  unfold SrcOperand.wake
  split
  · next same => simp [same]
  · next other => simp [other]

theorem eraseByTag_eq_filter (nodup : (sq.map (·.destTag)).Nodup) :
    eraseByTag sq t = sq.filter (·.destTag ≠ t) := by
  induction sq with
  | nil => rfl
  | cons e rest ih =>
      rw [List.map_cons, List.nodup_cons] at nodup
      by_cases here : e.destTag = t
      · have absent : ∀ e' ∈ rest, e'.destTag ≠ t := fun e' mem same =>
          nodup.1 (List.mem_map.mpr ⟨e', mem, same.trans here.symm⟩)
        have keeps : rest.filter (·.destTag ≠ t) = rest :=
          List.filter_eq_self.mpr fun e' mem => by simpa using absent e' mem
        rw [eraseByTag, List.eraseP_cons_of_pos (by simp [here]), List.filter_cons_of_neg (by simp [here]),
          keeps]
      · rw [eraseByTag, List.eraseP_cons_of_neg (by simp [here]), List.filter_cons_of_pos (by simp [here])]
        exact congrArg _ (ih nodup.2)

/-- The queue after a broadcast: everything but the result's own entry, woken. -/
theorem eraseByTag_wakeDependents (nodup : (sq.map (·.destTag)).Nodup) :
    eraseByTag (wakeDependents sq t) t = (sq.filter (·.destTag ≠ t)).map (SchedEntry.wake t) := by
  have tags : (wakeDependents sq t).map (·.destTag) = sq.map (·.destTag) := by
    simp [wakeDependents, Function.comp_def]
  rw [eraseByTag_eq_filter (tags ▸ nodup), wakeDependents, List.filter_map]
  rfl

theorem mem_broadcast (nodup : (sq.map (·.destTag)).Nodup) {s' : SchedEntry} :
    s' ∈ eraseByTag (wakeDependents sq t) t ↔ ∃ s ∈ sq, s.destTag ≠ t ∧ s.wake t = s' := by
  rw [eraseByTag_wakeDependents nodup]
  simp [and_assoc]

/-- A buffer entry after its result, if that is the one with the tag. -/
def RobEntry.finish (t : Nat) (entry : RobEntry) : RobEntry :=
  if entry.destTag = t then { entry with ready := true } else entry

@[simp] theorem RobEntry.finish_key (entry : RobEntry) : (entry.finish t).key = entry.key := by
  unfold finish
  split <;> rfl

@[simp] theorem RobEntry.finish_ready (entry : RobEntry) :
    (entry.finish t).ready = (decide (entry.destTag = t) || entry.ready) := by
  unfold finish
  split
  · next same => simp [same]
  · next other => simp [other]

theorem entryOf_spec (found : entryOf sq t = some s) : s ∈ sq ∧ s.destTag = t :=
  ⟨List.mem_of_find?_eq_some found, by simpa using List.find?_some found⟩

end

/-- Rewriting at a position is rewriting the one element with its tag. -/
theorem modify_eq_map {α : Type} {l : List α} {g : α → Nat} (nodup : (l.map g).Nodup) {k : Nat} {x : α}
    (here : l[k]? = some x) (f : α → α) : l.modify k f = l.map fun y => if g y = g x then f y else y := by
  refine List.ext_getElem? fun j => ?_
  rw [List.getElem?_modify, List.getElem?_map]
  cases at_j : l[j]? with
  | none => rfl
  | some y =>
      have same_iff : k = j ↔ g y = g x := by
        constructor
        · rintro rfl
          rw [here] at at_j
          cases at_j
          rfl
        · intro same
          have kth : (l.map g)[k]? = some (g x) := by simp [here]
          have jth : (l.map g)[j]? = some (g x) := by simp [at_j, same]
          have bound := (List.getElem?_eq_some_iff.mp kth).1
          exact (List.getElem?_inj bound nodup).mp (kth.trans jth.symm)
      simp only [Option.map_eq_map, Option.map_some, same_iff]

namespace Pipeline

variable {p p' : Pipeline}

/-- The instruction with the tag has no result yet. -/
def Waits (p : Pipeline) (tag : Nat) : Prop := ∃ s ∈ p.sq, s.destTag = tag

/-- Tags go up in dispatch order, the queue is the unfinished part of the buffer,
    and its entries know their slots. -/
structure Linked (p : Pipeline) : Prop where
  fresh : ∀ d ∈ Log.dispatched p.log, d.2 < p.rat.nextTag
  increasing : (Log.dispatched p.log).Pairwise (·.2 < ·.2)
  queued : p.sq.map SchedEntry.key = (p.rob.toList.filter (!·.ready)).map RobEntry.key
  slots : ∀ s ∈ p.sq, ∃ k entry, p.rob.toList[k]? = some entry ∧ entry.key = s.key ∧
    entry.ready = false ∧ p.rob.slotAt k = s.robIdx

/-- Tags of the buffer are distinct. -/
theorem Linked.tags_nodup (linked : p.Linked) (order : p.InOrder) :
    (p.rob.toList.map (·.destTag)).Nodup := by
  have sub : (p.rob.toList.map RobEntry.key).Sublist (Log.dispatched p.log) := by
    rw [order.dispatched]
    exact List.sublist_append_right ..
  have pairs : (p.rob.toList.map RobEntry.key).Pairwise (·.2 < ·.2) := linked.increasing.sublist sub
  rw [List.pairwise_map] at pairs
  exact List.pairwise_map.mpr (pairs.imp fun lt => Nat.ne_of_lt lt)

theorem Linked.queue_nodup (linked : p.Linked) (order : p.InOrder) : (p.sq.map (·.destTag)).Nodup := by
  have tags : p.sq.map (·.destTag) = (p.rob.toList.filter (!·.ready)).map (·.destTag) := by
    have keys := congrArg (List.map Prod.snd) linked.queued
    simpa [Function.comp_def, SchedEntry.key, RobEntry.key] using keys
  rw [tags]
  exact (linked.tags_nodup order).sublist (List.filter_sublist.map _)

/-- A queued instruction has been dispatched. -/
theorem Linked.dispatched (linked : p.Linked) (order : p.InOrder) {s : SchedEntry} (mem : s ∈ p.sq) :
    s.key ∈ Log.dispatched p.log := by
  obtain ⟨k, entry, at_k, key, -, -⟩ := linked.slots s mem
  rw [order.dispatched, ← key]
  exact List.mem_append_right _ (List.mem_map_of_mem (List.mem_of_getElem? at_k))

/-- No two dispatched instructions share a tag. -/
theorem Linked.tag_unique (linked : p.Linked) {d d' : Inst × Nat} (mem : d ∈ Log.dispatched p.log)
    (mem' : d' ∈ Log.dispatched p.log) (same : d.2 = d'.2) : d = d' := by
  have nodup : ((Log.dispatched p.log).map (·.2)).Nodup :=
    List.pairwise_map.mpr (linked.increasing.imp fun lt => Nat.ne_of_lt lt)
  exact List.inj_on_of_nodup_map nodup mem mem' same

/-! ### What the changes do to the queue -/

/-- Only what was broadcast stops waiting. -/
theorem waits_broadcast (nodup : (p.sq.map (·.destTag)).Nodup) {t tag : Nat} :
    (∃ s ∈ eraseByTag (wakeDependents p.sq t) t, s.destTag = tag) ↔ p.Waits tag ∧ tag ≠ t := by
  constructor
  · rintro ⟨s', mem, rfl⟩
    obtain ⟨s, held, other, rfl⟩ := (mem_broadcast nodup).mp mem
    exact ⟨⟨s, held, rfl⟩, other⟩
  · rintro ⟨⟨s, mem, rfl⟩, other⟩
    exact ⟨s.wake t, (mem_broadcast nodup).mpr ⟨s, mem, other, rfl⟩, rfl⟩

theorem map_markBusy {β : Type} {g : SchedEntry → β} (blind : ∀ e, g { e with busy := true } = g e)
    (sq : List SchedEntry) (t : Nat) : (markBusy sq t).map g = sq.map g := by
  unfold markBusy
  induction sq with
  | nil => rfl
  | cons e rest ih =>
      unfold Memory.modifyFirst
      split
      · rw [List.map_cons, List.map_cons, blind]
      · rw [List.map_cons, List.map_cons, ih]

theorem waits_markBusy {t tag : Nat} :
    (∃ s ∈ markBusy p.sq t, s.destTag = tag) ↔ p.Waits tag := by
  have tags : (markBusy p.sq t).map (·.destTag) = p.sq.map (·.destTag) :=
    map_markBusy (g := fun s => s.destTag) (fun _ => rfl) ..
  have mem := congrArg (tag ∈ ·) tags
  simpa only [List.mem_map, eq_iff_iff, Waits] using mem

/-! ### The queue follows the buffer -/

theorem Linked.pop (linked : p.Linked) (order : p.InOrder) (held : p.rob.count ≠ 0)
    (ready : p.rob.headEntry.ready = true) :
    p.sq.map SchedEntry.key = (p.rob.pop.toList.filter (!·.ready)).map RobEntry.key ∧
      ∀ s ∈ p.sq, ∃ k entry, p.rob.pop.toList[k]? = some entry ∧ entry.key = s.key ∧
        entry.ready = false ∧ p.rob.pop.slotAt k = s.robIdx := by
  have head := order.rob_head held
  refine ⟨?_, fun s mem => ?_⟩
  · have queued := linked.queued
    rwa [head, List.filter_cons_of_neg (by simp [ready])] at queued
  · obtain ⟨k, entry, at_k, key, unready, slot⟩ := linked.slots s mem
    cases k with
    | zero =>
        rw [head] at at_k
        cases at_k
        rw [ready] at unready
        cases unready
    | succ k =>
        rw [head, List.getElem?_cons_succ] at at_k
        exact ⟨k, entry, at_k, key, unready, (CircularBuffer.slotAt_pop ..).trans slot⟩

/-- What a broadcast does to the buffer: the entry with the tag is ready. -/
theorem Linked.modified (linked : p.Linked) (order : p.InOrder) {sched : SchedEntry} (mem : sched ∈ p.sq) :
    (p.rob.modify sched.robIdx fun entry => { entry with ready := true }).toList =
      p.rob.toList.map (RobEntry.finish sched.destTag) := by
  obtain ⟨k, entry, at_k, key, -, slot⟩ := linked.slots sched mem
  have bound : k < p.rob.count := by
    rw [← CircularBuffer.length_toList]
    exact (List.getElem?_eq_some_iff.mp at_k).1
  have tag : entry.destTag = sched.destTag := congrArg Prod.snd key
  rw [← slot, CircularBuffer.toList_modify order.buffer bound,
    modify_eq_map (linked.tags_nodup order) at_k, tag]
  rfl

theorem Linked.broadcast (linked : p.Linked) (order : p.InOrder) {sched : SchedEntry} (mem : sched ∈ p.sq) :
    let rob := p.rob.modify sched.robIdx fun entry => { entry with ready := true }
    let sq := eraseByTag (wakeDependents p.sq sched.destTag) sched.destTag
    sq.map SchedEntry.key = (rob.toList.filter (!·.ready)).map RobEntry.key ∧
      ∀ s ∈ sq, ∃ k entry, rob.toList[k]? = some entry ∧ entry.key = s.key ∧
        entry.ready = false ∧ rob.slotAt k = s.robIdx := by
  have nodup := linked.queue_nodup order
  simp only [linked.modified order mem]
  refine ⟨?_, fun s' mem' => ?_⟩
  · have unfinished := congrArg (List.filter fun key => key.2 ≠ sched.destTag) linked.queued
    rw [List.filter_map, List.filter_map, List.filter_filter] at unfinished
    rw [eraseByTag_wakeDependents nodup, List.map_map, List.filter_map, List.map_map]
    have left : ∀ entry : RobEntry, (decide (entry.key.2 ≠ sched.destTag) && !entry.ready) =
        !(entry.finish sched.destTag).ready := fun entry => by
      by_cases here : entry.destTag = sched.destTag <;> simp [RobEntry.key, here]
    refine unfinished.trans ((congrArg _ (List.filter_congr fun entry _ => left entry)).trans ?_)
    exact List.map_congr_left fun entry _ => (RobEntry.finish_key entry).symm
  · obtain ⟨s, mem, other, rfl⟩ := (mem_broadcast nodup).mp mem'
    obtain ⟨k, entry, at_k, key, unready, slot⟩ := linked.slots s mem
    have tag : entry.destTag = s.destTag := congrArg Prod.snd key
    refine ⟨k, entry, ?_, key, unready, slot⟩
    rw [List.getElem?_map, at_k, Option.map_some, RobEntry.finish, if_neg (tag ▸ other)]

theorem Linked.step (linked : p.Linked) (order : p.InOrder) (step : Step p p') : p'.Linked := by
  cases step with
  | retire held ready | flush held ready =>
      obtain ⟨queued, slots⟩ := linked.pop order held ready
      exact ⟨by simpa using linked.fresh, by simpa using linked.increasing, queued, slots⟩
  | @writeback tag sched pointers found held =>
      obtain ⟨queued, slots⟩ := linked.broadcast order (entryOf_spec found).1
      refine ⟨?_, by simpa using linked.increasing, queued, slots⟩
      simpa using linked.fresh
  | @fire oldest mem canFire =>
      refine ⟨by simpa using linked.fresh, by simpa using linked.increasing, ?_, fun s' mem' => ?_⟩
      · exact (map_markBusy (g := SchedEntry.key) (fun _ => rfl) ..).trans linked.queued
      · rcases Memory.mem_modifyFirst mem' with old | ⟨s, inside, -, rfl⟩
        · exact linked.slots s' old
        · exact linked.slots s inside
  | @dispatch inst rest next schedqRoom robRoom =>
      have pushed := CircularBuffer.toList_push order.buffer robRoom
        { destReg := inst.dest, destTag := p.rat.nextTag, inst }
      refine ⟨?_, ?_, ?_, fun s mem => ?_⟩
      · intro d mem
        simp only [Log.dispatched_snoc, List.mem_append, List.mem_singleton, Rat.writeUse_nextTag] at mem ⊢
        rcases mem with old | rfl
        · exact Nat.lt_succ_of_lt (linked.fresh d old)
        · exact Nat.lt_succ_self _
      · simp only [Log.dispatched_snoc, List.pairwise_append]
        refine ⟨linked.increasing, List.pairwise_singleton .., fun d mem d' last => ?_⟩
        rw [List.mem_singleton.mp last]
        exact linked.fresh d mem
      · rw [pushed, List.filter_append, List.map_append, List.map_append, linked.queued]
        rfl
      · rw [pushed]
        rcases List.mem_append.mp mem with mem | mem
        · obtain ⟨k, entry, at_k, key, unready, slot⟩ := linked.slots s mem
          refine ⟨k, entry, ?_, key, unready, slot⟩
          rw [List.getElem?_append_left (List.getElem?_eq_some_iff.mp at_k).1]
          exact at_k
        · cases List.mem_singleton.mp mem
          refine ⟨p.rob.count, { destReg := inst.dest, destTag := p.rat.nextTag, inst }, ?_, rfl, rfl,
            order.buffer.tail.symm⟩
          rw [List.getElem?_append_right (by simp), CircularBuffer.length_toList, Nat.sub_self]
          rfl
  | call | fetch =>
      exact ⟨by simpa using linked.fresh, by simpa using linked.increasing, linked.queued, linked.slots⟩

/-! ### Table and operands -/

/-- The instructions in flight, oldest first. -/
def inFlight (p : Pipeline) : List Inst := p.rob.toList.map (·.inst) ++ p.dispq

/-- A mispredicted branch in flight is the youngest, and fetch waits for it. -/
def Lone (p : Pipeline) : Prop :=
  ∀ older inst younger, p.inFlight = older ++ inst :: younger → inst.mispredict = true →
    younger = [] ∧ p.inMispred = true

def ReadsBelow (p : Pipeline) (bound : Nat) (reg : Option Reg) (tag : Nat) (ready : Bool) : Prop :=
  Reads Inst.dest (Log.dispatched p.log) p.Waits bound reg tag ready

structure Renamed (p : Pipeline) : Prop where
  /-- What no longer waits has been written back. -/
  done : ∀ d ∈ Log.dispatched p.log, ¬p.Waits d.2 → .wroteBack d.1 ∈ p.log
  table : ∀ reg, p.ReadsBelow p.rat.nextTag (some reg) (p.rat.entries reg).tag (p.rat.entries reg).ready
  operands : ∀ s ∈ p.sq, p.ReadsBelow s.destTag s.inst.src1 s.src1.tag s.src1.ready ∧
    p.ReadsBelow s.destTag s.inst.src2 s.src2.tag s.src2.ready
  lone : p.Lone

theorem Lone.pop (lone : p.Lone) (order : p.InOrder) (held : p.rob.count ≠ 0) :
    ∀ older inst younger, p.rob.pop.toList.map (·.inst) ++ p.dispq = older ++ inst :: younger →
      inst.mispredict = true → younger = [] ∧ p.inMispred = true := by
  intro older inst younger split
  refine lone (p.rob.headEntry.inst :: older) inst younger ?_
  rw [inFlight, order.rob_head held, List.map_cons, List.cons_append, split, List.cons_append]

/-- A mispredicted head is alone in the pipeline. -/
theorem Lone.head (lone : p.Lone) (order : p.InOrder) (held : p.rob.count ≠ 0)
    (mispredict : p.rob.headEntry.inst.mispredict = true) : p.rob.pop.toList = [] ∧ p.dispq = [] := by
  have alone := (lone [] p.rob.headEntry.inst (p.rob.pop.toList.map (·.inst) ++ p.dispq)
    (by rw [inFlight, order.rob_head held, List.map_cons]; rfl) mispredict).1
  rw [List.append_eq_nil_iff, List.map_eq_nil_iff] at alone
  exact alone

/-- Nothing is queued behind a mispredicted branch that retires. -/
theorem Renamed.flush_empties (renamed : p.Renamed) (linked : p.Linked) (order : p.InOrder)
    (held : p.rob.count ≠ 0) (ready : p.rob.headEntry.ready = true)
    (mispredict : p.rob.headEntry.inst.mispredict = true) : p.sq = [] := by
  have queued := (linked.pop order held ready).1
  rw [(renamed.lone.head order held mispredict).1] at queued
  exact List.map_eq_nil_iff.mp queued

/-- Reading the table gives what a reader after everything dispatched holds. -/
theorem Renamed.read (renamed : p.Renamed) (reg : Option Reg) :
    p.ReadsBelow p.rat.nextTag reg (p.rat.read reg).tag (p.rat.read reg).ready := by
  cases reg with
  | none => exact .absent
  | some reg => exact renamed.table reg

theorem Lone.fetch (lone : p.Lone) (unblocked : p.inMispred = false) {inst : Inst} :
    ∀ older inst' younger, p.rob.toList.map (·.inst) ++ (p.dispq ++ [inst]) = older ++ inst' :: younger →
      inst'.mispredict = true → younger = [] ∧ inst.mispredict = true := by
  intro older inst' younger split mispredict
  rw [← List.append_assoc] at split
  rcases List.eq_nil_or_concat younger with rfl | ⟨front, last, rfl⟩
  · have last : inst = inst' := (List.append_inj' split rfl).2 |> List.singleton_inj.mp
    exact ⟨rfl, last ▸ mispredict⟩
  · rw [List.concat_eq_append, ← List.cons_append, ← List.append_assoc] at split
    have before := (lone older inst' front (List.append_inj' split rfl).1 mispredict).2
    rw [unblocked] at before
    cases before

theorem Renamed.step (renamed : p.Renamed) (linked : p.Linked) (order : p.InOrder) (step : Step p p') :
    p'.Renamed := by
  cases step with
  | retire held ready predicted =>
      refine ⟨fun d mem idle => ?_, fun reg => ?_, fun s mem => ?_, renamed.lone.pop order held⟩
      · simp only [Log.dispatched_snoc, List.append_nil] at mem
        exact List.mem_append_left _ (renamed.done d mem idle)
      · unfold ReadsBelow
        simp only [Log.dispatched_snoc, List.append_nil]
        exact renamed.table reg
      · unfold ReadsBelow
        simp only [Log.dispatched_snoc, List.append_nil]
        exact renamed.operands s mem
  | flush held ready mispredicted =>
      have empty := renamed.flush_empties linked order held ready mispredicted.2
      have idle : ∀ x, ¬p.Waits x := fun x ⟨s, mem, _⟩ => by simp [empty] at mem
      obtain ⟨rest, dispq⟩ := renamed.lone.head order held mispredicted.2
      refine ⟨fun d mem idle => ?_, fun reg => ?_, fun s mem => ?_, fun older inst younger split => ?_⟩
      · simp only [Log.dispatched_snoc, List.append_nil] at mem
        exact List.mem_append_left _ (renamed.done d mem idle)
      · unfold ReadsBelow
        simp only [Log.dispatched_snoc, List.append_nil]
        exact (renamed.table reg).settled idle
      · simp [empty] at mem
      · simp [inFlight, rest, dispq] at split
  | @writeback tag sched pointers found held =>
      have nodup := linked.queue_nodup order
      have mem := (entryOf_spec found).1
      refine ⟨fun d mem' idle => ?_, fun reg => ?_, fun s' mem' => ?_, ?_⟩
      · simp only [Log.dispatched_snoc, List.append_nil] at mem'
        by_cases same : d.2 = sched.destTag
        · have this : d = sched.key := linked.tag_unique mem' (linked.dispatched order mem) same
          rw [this]
          exact List.mem_append_right _ (List.mem_singleton_self _)
        · have idle : ¬p.Waits d.2 := fun waits => idle ((waits_broadcast nodup).mpr ⟨waits, same⟩)
          exact List.mem_append_left _ (renamed.done d mem' idle)
      · unfold ReadsBelow
        simp only [Log.dispatched_snoc, List.append_nil]
        by_cases here : sched.inst.dest = some reg
        · rw [Rat.markComplete_self _ _ _ _ here, Rat.markComplete_nextTag]
          exact (renamed.table reg).woken fun x => waits_broadcast nodup
        · rw [Rat.markComplete_other _ _ _ _ here, Rat.markComplete_nextTag]
          refine (renamed.table reg).untouched (fun d mem' same => ?_) fun x => waits_broadcast nodup
          rw [linked.tag_unique mem' (linked.dispatched order mem) same]
          exact here
      · obtain ⟨s, inside, -, rfl⟩ := (mem_broadcast nodup).mp mem'
        obtain ⟨first, second⟩ := renamed.operands s inside
        unfold ReadsBelow
        simp only [Log.dispatched_snoc, List.append_nil, SchedEntry.wake, SrcOperand.wake_tag,
          SrcOperand.wake_ready]
        exact ⟨first.woken fun x => waits_broadcast nodup, second.woken fun x => waits_broadcast nodup⟩
      · have insts : (p.rob.modify sched.robIdx fun entry => { entry with ready := true }).toList.map
            (·.inst) = p.rob.toList.map (·.inst) :=
          CircularBuffer.toList_map_modify (g := fun entry : RobEntry => entry.inst)
            (f := fun entry => { entry with ready := true }) (fun _ => rfl) _
        have lone := renamed.lone
        simp only [Lone, inFlight, insts] at lone ⊢
        exact lone
  | call queued clear =>
      refine ⟨fun d mem idle => ?_, fun reg => ?_, fun s mem => ?_, renamed.lone⟩
      · simp only [Log.dispatched_snoc, List.append_nil] at mem
        exact List.mem_append_left _ (renamed.done d mem idle)
      · unfold ReadsBelow
        simp only [Log.dispatched_snoc, List.append_nil]
        exact renamed.table reg
      · unfold ReadsBelow
        simp only [Log.dispatched_snoc, List.append_nil]
        exact renamed.operands s mem
  | @fire oldest mem canFire =>
      have waits : ∀ x, _ ↔ p.Waits x := fun x => waits_markBusy (t := oldest.destTag)
      refine ⟨fun d mem idle => ?_, fun reg => ?_, fun s' mem' => ?_, renamed.lone⟩
      · simp only [Log.dispatched_snoc, List.append_nil] at mem
        exact List.mem_append_left _ (renamed.done d mem fun held => idle ((waits _).mpr held))
      · unfold ReadsBelow
        simp only [Log.dispatched_snoc, List.append_nil]
        exact (renamed.table reg).congr waits
      · unfold ReadsBelow
        simp only [Log.dispatched_snoc, List.append_nil]
        rcases Memory.mem_modifyFirst mem' with old | ⟨s, inside, -, rfl⟩
        · exact (renamed.operands s' old).imp (·.congr waits) (·.congr waits)
        · exact (renamed.operands s inside).imp (·.congr waits) (·.congr waits)
  | @dispatch inst rest next schedqRoom robRoom =>
      have waits : ∀ (entry : SchedEntry) (x : Nat), entry.destTag = p.rat.nextTag →
          ((∃ s ∈ p.sq ++ [entry], s.destTag = x) ↔ p.Waits x ∨ x = p.rat.nextTag) := by
        intro entry x tag
        simp [Waits, or_and_right, exists_or, tag, eq_comm]
      refine ⟨fun d mem idle => ?_, fun reg => ?_, fun s mem => ?_, ?_⟩
      · simp only [Log.dispatched_snoc, List.mem_append, List.mem_singleton] at mem
        rcases mem with old | rfl
        · exact List.mem_append_left _ (renamed.done d old fun held => idle ((waits _ _ rfl).mpr (.inl held)))
        · exact absurd ((waits _ _ rfl).mpr (.inr rfl)) idle
      · unfold ReadsBelow
        simp only [Log.dispatched_snoc, Rat.writeUse_nextTag]
        by_cases here : inst.dest = some reg
        · rw [Rat.writeUse_self _ _ _ _ here]
          exact .written here ((waits _ _ rfl).mpr (.inr rfl))
        · rw [Rat.writeUse_other _ _ _ _ here]
          exact (renamed.table reg).passed here linked.fresh fun x => waits _ x rfl
      · unfold ReadsBelow
        simp only [Log.dispatched_snoc]
        rcases List.mem_append.mp mem with old | new
        · have before := Nat.le_of_lt (linked.fresh s.key (linked.dispatched order old))
          obtain ⟨first, second⟩ := renamed.operands s old
          exact ⟨first.later before fun x => waits _ x rfl, second.later before fun x => waits _ x rfl⟩
        · rw [List.mem_singleton.mp new]
          exact ⟨(renamed.read inst.src1).later (Nat.le_refl _) fun x => waits _ x rfl,
            (renamed.read inst.src2).later (Nat.le_refl _) fun x => waits _ x rfl⟩
      · have lone := renamed.lone
        simp only [Lone, inFlight, CircularBuffer.toList_push order.buffer robRoom, List.map_append, next,
          List.map_singleton, List.append_assoc, List.singleton_append] at lone ⊢
        exact lone
  | @fetch rec inst room unblocked as =>
      refine ⟨fun d mem idle => ?_, fun reg => ?_, fun s mem => ?_, renamed.lone.fetch unblocked⟩
      · simp only [Log.dispatched_snoc, List.append_nil] at mem
        exact List.mem_append_left _ (renamed.done d mem idle)
      · unfold ReadsBelow
        simp only [Log.dispatched_snoc, List.append_nil]
        exact renamed.table reg
      · unfold ReadsBelow
        simp only [Log.dispatched_snoc, List.append_nil]
        exact renamed.operands s mem

/-! ### What was placed in a unit -/

/-- The most recent older writer of a register. -/
def lastWriter (program : List Inst) (inst : Inst) (reg : Reg) : Option Inst :=
  (program.filter fun w => w.dynCount < inst.dynCount ∧ w.dest = some reg).getLast?

/-- Older by number is earlier by tag. -/
theorem Linked.older_iff (linked : p.Linked) (order : p.InOrder) {d d' : Inst × Nat}
    (mem : d ∈ Log.dispatched p.log) (mem' : d' ∈ Log.dispatched p.log) :
    d.1.dynCount < d'.1.dynCount ↔ d.2 < d'.2 := by
  have numbers : (Log.dispatched p.log).Pairwise fun a b => a.1.dynCount < b.1.dynCount := by
    have all := order.fetched_increasing
    rw [order.fetched, List.pairwise_append, List.pairwise_map] at all
    exact all.1
  have both := numbers.and linked.increasing
  refine List.Pairwise.forall_of_forall_of_flip (R := fun a b : Inst × Nat =>
    a.1.dynCount < b.1.dynCount ↔ a.2 < b.2) (fun _ _ => by simp) (both.imp ?_) (both.imp ?_) mem mem'
  · exact fun ⟨number, tag⟩ => iff_of_true number tag
  · exact fun ⟨number, tag⟩ => iff_of_false (Nat.lt_asymm number) (Nat.lt_asymm tag)

/-- The last writer in the trace is the one that renaming finds. -/
theorem Linked.lastWriter_eq (linked : p.Linked) (order : p.InOrder) {s : SchedEntry} (mem : s ∈ p.sq)
    (reg : Reg) : lastWriter (Log.fetched p.log) s.inst reg =
      (writerBelow Inst.dest (Log.dispatched p.log) s.destTag reg).map (·.1) := by
  have here := linked.dispatched order mem
  have later : ∀ w ∈ p.dispq, ¬w.dynCount < s.inst.dynCount := fun w waiting => by
    have all := order.fetched_increasing
    rw [order.fetched] at all
    exact Nat.lt_asymm ((List.pairwise_append.mp all).2.2 _ (List.mem_map_of_mem here) w waiting)
  unfold lastWriter writerBelow
  rw [order.fetched, List.filter_append, List.filter_map, ← List.getLast?_map]
  have none : p.dispq.filter (fun w => decide (w.dynCount < s.inst.dynCount ∧ w.dest = some reg)) = [] :=
    List.filter_eq_nil_iff.mpr fun w waiting => by simp [later w waiting]
  rw [none, List.append_nil]
  have same : ∀ d ∈ Log.dispatched p.log,
      decide (d.1.dynCount < s.inst.dynCount ∧ d.1.dest = some reg) =
        decide (d.2 < s.destTag ∧ d.1.dest = some reg) := fun d mem' =>
    decide_eq_decide.mpr (and_congr_left' (linked.older_iff order mem' here))
  exact congrArg (fun l : List (Inst × Nat) => (l.map (·.1)).getLast?) (List.filter_congr same)

/-- An operand that is not ready waits for an older entry. -/
theorem Linked.awaits (linked : p.Linked) (order : p.InOrder) {s : SchedEntry} (mem : s ∈ p.sq)
    {reg : Option Reg} {tag : Nat} (reads : p.ReadsBelow s.destTag reg tag false) :
    ∃ older ∈ p.sq, older.destTag = tag ∧ older.inst.dynCount < s.inst.dynCount := by
  obtain ⟨r, writer, -, last, rfl, older, queued, same⟩ := reads.unready
  refine ⟨older, queued, same, ?_⟩
  refine (linked.older_iff order (linked.dispatched order queued) (linked.dispatched order mem)).mpr ?_
  have below := (writerBelow_mem last).2.1
  rwa [← same] at below

/-- Whatever was placed in a unit had been fetched, and the last writers of its
    sources had written back. -/
def Fires (log : List Event) : Prop :=
  ∀ earlier inst later, log = earlier ++ .fired inst :: later →
    inst ∈ Log.fetched earlier ∧ ∀ reg, inst.src1 = some reg ∨ inst.src2 = some reg →
      ∀ writer, lastWriter (Log.fetched earlier) inst reg = some writer → .wroteBack writer ∈ earlier

theorem Fires.snoc {log : List Event} {event : Event} (fires : Fires log)
    (last : ∀ inst, event = .fired inst → inst ∈ Log.fetched log ∧
      ∀ reg, inst.src1 = some reg ∨ inst.src2 = some reg →
        ∀ writer, lastWriter (Log.fetched log) inst reg = some writer → .wroteBack writer ∈ log) :
    Fires (log ++ [event]) := by
  intro earlier inst later split
  refine Log.each_snoc (P := fun earlier event => ∀ inst, event = .fired inst →
    inst ∈ Log.fetched earlier ∧ ∀ reg, inst.src1 = some reg ∨ inst.src2 = some reg →
      ∀ writer, lastWriter (Log.fetched earlier) inst reg = some writer → .wroteBack writer ∈ earlier)
    ?_ last earlier _ later split inst rfl
  intro earlier event later split inst here
  exact fires earlier inst later (here ▸ split)

theorem Linked.fetched (linked : p.Linked) (order : p.InOrder) {s : SchedEntry} (mem : s ∈ p.sq) :
    s.inst ∈ Log.fetched p.log := by
  rw [order.fetched]
  exact List.mem_append_left _ (List.mem_map_of_mem (f := Prod.fst) (linked.dispatched order mem))

theorem Linked.canFire (linked : p.Linked) (order : p.InOrder) (renamed : p.Renamed) {s : SchedEntry}
    (mem : s ∈ p.sq) (fires : s.canFire = true) : s.inst ∈ Log.fetched p.log ∧
      ∀ reg, s.inst.src1 = some reg ∨ s.inst.src2 = some reg →
        ∀ writer, lastWriter (Log.fetched p.log) s.inst reg = some writer → .wroteBack writer ∈ p.log := by
  refine ⟨linked.fetched order mem, fun reg source writer last => ?_⟩
  rw [linked.lastWriter_eq order mem] at last
  obtain ⟨d, below, rfl⟩ := Option.map_eq_some_iff.mp last
  simp only [SchedEntry.canFire, Bool.and_eq_true] at fires
  obtain ⟨first, second⟩ := renamed.operands s mem
  rw [fires.1.2] at first
  rw [fires.2] at second
  refine renamed.done d (writerBelow_mem below).1 ?_
  rcases source with source | source
  · rw [source] at first
    exact first.finished below
  · rw [source] at second
    exact second.finished below

theorem Fires.step (fires : Fires p.log) (linked : p.Linked) (order : p.InOrder) (renamed : p.Renamed)
    (step : Step p p') : Fires p'.log := by
  cases step with
  | retire | flush | writeback | call | dispatch | fetch =>
      refine Fires.snoc fires fun inst same => ?_
      cases same
  | fire mem canFire =>
      refine Fires.snoc fires fun inst same => ?_
      cases same
      exact linked.canFire order renamed mem canFire

/-- The invariants together. -/
structure Sound (p : Pipeline) : Prop where
  order : p.InOrder
  linked : p.Linked
  renamed : p.Renamed
  fires : Fires p.log

theorem Sound.step (sound : p.Sound) (step : Step p p') : p'.Sound :=
  ⟨sound.order.step step, sound.linked.step sound.order step,
    sound.renamed.step sound.linked sound.order step,
    sound.fires.step sound.linked sound.order sound.renamed step⟩

end Pipeline

/-! ## Runs -/

variable {S : Surroundings} {cfg : OooConfig} {outside : S.State} {tid : Nat} {c : Core S}

theorem sound_run (run : (machine S).Reachable (Core.make cfg outside tid) c) : c.pipe.Sound := by
  refine Core.pipe_invariant ?_ (fun _ _ sound step => sound.step step) run
  have log : (Core.make cfg outside tid : Core S).pipe.log = [] := rfl
  have sq : (Core.make cfg outside tid : Core S).pipe.sq = [] := rfl
  have inFlight : (Core.make cfg outside tid : Core S).pipe.inFlight = [] := rfl
  refine ⟨inOrder_run .start, ⟨?_, ?_, ?_, ?_⟩, ⟨?_, ?_, ?_, ?_⟩, ?_⟩
  · simp [log, Log.dispatched]
  · simp [log, Log.dispatched]
  · rfl
  · simp [sq]
  · simp [log, Log.dispatched]
  · exact fun reg => rfl
  · simp [sq]
  · simp [Pipeline.Lone, inFlight]
  · simp [Pipeline.Fires, log]

open Pipeline in
/-- An instruction goes to a unit after the most recent older writer of each of its
    sources has written back, and an operand that is not ready names an older entry
    that is still queued. -/
theorem registers_in_order (run : (machine S).Reachable (Core.make cfg outside tid) c) :
    (∀ earlier inst later, c.log = earlier ++ .fired inst :: later →
      ∀ reg, inst.src1 = some reg ∨ inst.src2 = some reg →
        ∀ writer, lastWriter (Log.fetched c.log) inst reg = some writer → .wroteBack writer ∈ earlier) ∧
      ∀ s ∈ c.sq, ∀ src ∈ [s.src1, s.src2], src.ready = false →
        ∃ older ∈ c.sq, older.destTag = src.tag ∧ older.inst.dynCount < s.inst.dynCount := by
  have sound := sound_run run
  refine ⟨fun earlier inst later split reg source writer last => ?_, fun s mem src operand unready => ?_⟩
  · obtain ⟨fetched, written⟩ := sound.fires earlier inst later split
    refine written reg source writer ?_
    -- What was fetched after the instruction is younger than it.
    have all : Log.fetched c.log = Log.fetched earlier ++ Log.fetched (.fired inst :: later) := by
      rw [split]
      exact List.filterMap_append ..
    have increasing := sound.order.fetched_increasing
    have younger : (Log.fetched (.fired inst :: later)).filter
        (fun w => decide (w.dynCount < inst.dynCount ∧ w.dest = some reg)) = [] := by
      refine List.filter_eq_nil_iff.mpr fun w mem => ?_
      have after := (List.pairwise_append.mp (all ▸ increasing)).2.2 inst fetched w mem
      simp [Nat.lt_asymm after]
    rwa [lastWriter, all, List.filter_append, younger, List.append_nil] at last
  · obtain ⟨first, second⟩ := sound.renamed.operands s mem
    rcases List.mem_pair.mp operand with rfl | rfl
    · rw [unready] at first
      exact sound.linked.awaits sound.order mem first
    · rw [unready] at second
      exact sound.linked.awaits sound.order mem second

/-- A load of register 2 before an instruction that reads it. -/
def loadThenUse (cycles : Nat) : Core listed :=
  (machine listed).attempt
    (Core.make {} [{ ip := 4, sourceMemory := [64], destinationRegisters := [2] },
      { ip := 8, sourceRegisters := [2] }] 0)
    (List.replicate cycles .tick)

theorem loadThenUse_waits : ∃ load use : Inst, (∃ s ∈ (loadThenUse 2).sq, s.inst = use ∧ s.src1.ready = false) ∧
    (loadThenUse 4).log = (loadThenUse 4).log.take 7 ++ [.fired use] ∧
    .wroteBack load ∈ (loadThenUse 4).log.take 7 := by
  have written := (registers_in_order
    (machine listed |>.reachable_attempt _ (List.replicate 4 .tick) : (machine listed).Reachable _
      (loadThenUse 4))).1
  refine ⟨{ pc := 4, opcode := .load, dest := some 2, memAddr := 64, dynCount := 1 },
    { pc := 8, src1 := some 2, dynCount := 2 }, by decide +kernel, by decide +kernel, ?_⟩
  exact written _ { pc := 8, src1 := some 2, dynCount := 2 } [] (by decide +kernel) 2 (.inl rfl) _
    (by decide +kernel)

end Ooo
