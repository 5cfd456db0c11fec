import MulticoreSim.Ooo.Core
import Mathlib.Logic.Relation
import Mathlib.Algebra.BigOperators.Group.Multiset.Basic

/-! # What a pipeline does

A cycle is a row of small changes: an entry retires, a result is broadcast, an
entry goes to a unit, an instruction is dispatched or fetched. What is around the
core decides which of them happen and in which order, and nothing else.
-/

namespace Ooo

/-! ## Histories -/

namespace Log

def delivered (log : List Event) : List Record :=
  log.filterMap fun
    | .fetched record _ => some record
    | _ => none

def fetched (log : List Event) : List Inst :=
  log.filterMap fun
    | .fetched _ inst => some inst
    | _ => none

/-- Instructions in dispatch order, each with its tag. -/
def dispatched (log : List Event) : List (Inst × Nat) :=
  log.filterMap fun
    | .dispatched inst tag => some (inst, tag)
    | _ => none

def retired (log : List Event) : List (Inst × Nat) :=
  log.filterMap fun
    | .retired inst tag => some (inst, tag)
    | _ => none

section

variable (log : List Event) (event : Event)

@[simp] theorem delivered_snoc : delivered (log ++ [event]) = delivered log ++
    match event with
    | .fetched record _ => [record]
    | _ => [] := by
  cases event <;> simp [delivered]

@[simp] theorem fetched_snoc : fetched (log ++ [event]) = fetched log ++
    match event with
    | .fetched _ inst => [inst]
    | _ => [] := by
  cases event <;> simp [fetched]

@[simp] theorem dispatched_snoc : dispatched (log ++ [event]) = dispatched log ++
    match event with
    | .dispatched inst tag => [(inst, tag)]
    | _ => [] := by
  cases event <;> simp [dispatched]

@[simp] theorem retired_snoc : retired (log ++ [event]) = retired log ++
    match event with
    | .retired inst tag => [(inst, tag)]
    | _ => [] := by
  cases event <;> simp [retired]

/-- What holds of every event with the history before it. -/
theorem each_snoc {P : List Event → Event → Prop} {log : List Event} {event : Event}
    (each : ∀ earlier event later, log = earlier ++ event :: later → P earlier event)
    (last : P log event) :
    ∀ earlier event' later, log ++ [event] = earlier ++ event' :: later → P earlier event' := by
  intro earlier event' later split
  rcases List.eq_nil_or_concat later with rfl | ⟨front, final, rfl⟩
  · obtain ⟨same, here⟩ := List.append_inj' split rfl
    rw [← same, ← List.singleton_inj.mp here]
    exact last
  · rw [List.concat_eq_append, ← List.cons_append, ← List.append_assoc] at split
    exact each earlier event' front (List.append_inj' split rfl).1

/-- Neither a delivery nor a retirement. -/
def Unseen : Event → Prop
  | .dispatched .. | .called .. | .fired .. | .wroteBack .. => True
  | .fetched .. | .retired .. => False

theorem snoc_unseen {log : List Event} {event : Event} (unseen : Unseen event) :
    delivered (log ++ [event]) = delivered log ∧ retired (log ++ [event]) = retired log := by
  cases event with
  | dispatched | called | fired | wroteBack => simp
  | fetched | retired => exact unseen.elim

end

end Log

/-! ## Pointers of the units -/

def MulUnit.tags (u : MulUnit) : Multiset Nat :=
  u.stage1.elim 0 singleton + u.stage2.elim 0 singleton + u.stage3.elim 0 singleton

/-- The entries that the units point to. -/
def Units.tags (units : Units) : Multiset Nat :=
  (units.alu.map fun u => u.elim 0 singleton).sum + (units.mul.map MulUnit.tags).sum +
    (units.lsu.map fun u => u.elim 0 fun u => {u.sched}).sum

section

variable {α : Type} (g : α → Multiset Nat) (tag : Nat)

theorem sum_modifyFirst {p : α → Bool} {f : α → α} {l : List α} (some : l.any p = true)
    (adds : ∀ x, p x = true → g (f x) = {tag} + g x) :
    ((Memory.modifyFirst p f l).map g).sum = {tag} + (l.map g).sum := by
  induction l with
  | nil => cases some
  | cons x rest ih =>
      unfold Memory.modifyFirst
      by_cases meets : p x = true
      · rw [if_pos meets, List.map_cons, List.sum_cons, adds x meets, List.map_cons, List.sum_cons,
          add_assoc]
      · have some : rest.any p = true := by simpa [List.any_cons, meets] using some
        rw [if_neg meets, List.map_cons, List.sum_cons, ih some, List.map_cons, List.sum_cons,
          add_left_comm]

theorem sum_set {l : List α} {i : Nat} {x y : α} (here : l[i]? = some x) (drops : g x = {tag} + g y) :
    (l.map g).sum = {tag} + ((l.set i y).map g).sum := by
  induction l generalizing i with
  | nil => simp at here
  | cons z rest ih =>
      cases i with
      | zero =>
          have here : z = x := by simpa using here
          rw [List.set_cons_zero, List.map_cons, List.sum_cons, List.map_cons, List.sum_cons, here,
            drops, add_assoc]
      | succ i =>
          have here : rest[i]? = some x := by simpa using here
          rw [List.set_cons_succ, List.map_cons, List.sum_cons, List.map_cons, List.sum_cons, ih here,
            add_left_comm]

end

/-! ## Pipelines -/

/-- What a core holds of its instructions. -/
structure Pipeline where
  cfg : OooConfig
  tid : Nat
  dispq : List Inst
  sq : List SchedEntry
  rob : Rob
  rat : Rat
  pointers : Multiset Nat
  inMispred : Bool
  dynCount : Nat
  fetchedCount : Nat
  retiredCount : Nat
  log : List Event

namespace Pipeline

/-- What fetch makes of a record. -/
structure FetchedAs (rec : Record) (dynCount : Nat) (inst : Inst) : Prop where
  dynCount : inst.dynCount = dynCount
  syncToken : inst.syncToken = rec.syncToken
  memAddr : inst.memAddr = 0 ∨ inst.memAddr ∈ rec.addresses
  branch : inst.mispredict = true → inst.opcode = .branch
  plain : inst.mispredict = true → inst.syncToken = none

inductive Step : Pipeline → Pipeline → Prop where
  | retire {p : Pipeline} (held : p.rob.count ≠ 0) (ready : p.rob.headEntry.ready = true)
      (predicted : ¬(p.rob.headEntry.inst.opcode = .branch ∧ p.rob.headEntry.inst.mispredict)) :
      Step p { p with
        rob := p.rob.pop
        retiredCount := p.retiredCount + 1
        log := p.log ++ [.retired p.rob.headEntry.inst p.rob.headEntry.destTag] }
  /-- A mispredicted branch retires. -/
  | flush {p : Pipeline} (held : p.rob.count ≠ 0) (ready : p.rob.headEntry.ready = true)
      (mispredicted : p.rob.headEntry.inst.opcode = .branch ∧ p.rob.headEntry.inst.mispredict) :
      Step p { p with
        rat := p.rat.flushToReady
        inMispred := false
        rob := p.rob.pop
        retiredCount := p.retiredCount + 1
        log := p.log ++ [.retired p.rob.headEntry.inst p.rob.headEntry.destTag] }
  | writeback {p : Pipeline} {tag : Nat} {sched : SchedEntry} {pointers : Multiset Nat}
      (found : entryOf p.sq tag = some sched) (held : p.pointers = {tag} + pointers) :
      Step p { p with
        rat := p.rat.markComplete sched.inst.dest sched.destTag
        rob := p.rob.modify sched.robIdx fun entry => { entry with ready := true }
        sq := eraseByTag (wakeDependents p.sq sched.destTag) sched.destTag
        pointers
        log := p.log ++ [.wroteBack sched.inst] }
  /-- The cache is called for an entry that nothing in the queue keeps back. -/
  | call {p : Pipeline} {oldest : SchedEntry} (queued : oldest ∈ p.sq)
      (clear : ambiguous p.sq oldest = false) :
      Step p { p with log := p.log ++ [.called oldest.inst] }
  | fire {p : Pipeline} {oldest : SchedEntry} (queued : oldest ∈ p.sq) (canFire : oldest.canFire = true) :
      Step p { p with
        pointers := {oldest.destTag} + p.pointers
        sq := markBusy p.sq oldest.destTag
        log := p.log ++ [.fired oldest.inst] }
  | dispatch {p : Pipeline} {inst : Inst} {rest : List Inst} (next : p.dispq = inst :: rest)
      (schedqRoom : p.sq.length < p.cfg.schedqCapacity) (robRoom : p.rob.full = false) :
      Step p { p with
        dispq := rest
        rat := { p.rat with nextTag := p.rat.nextTag + 1 }.writeUse inst.dest p.rat.nextTag
        rob := p.rob.push { destReg := inst.dest, destTag := p.rat.nextTag, inst }
        sq := p.sq ++ [{ inst, destTag := p.rat.nextTag
                         src1 := { tag := (p.rat.read inst.src1).tag, ready := (p.rat.read inst.src1).ready }
                         src2 := { tag := (p.rat.read inst.src2).tag, ready := (p.rat.read inst.src2).ready }
                         robIdx := p.rob.tail }]
        log := p.log ++ [.dispatched inst p.rat.nextTag] }
  | fetch {p : Pipeline} {rec : Record} {inst : Inst} (room : p.dispq.length < p.cfg.dispqCapacity)
      (unblocked : p.inMispred = false) (as : FetchedAs rec (p.dynCount + 1) inst) :
      Step p { p with
        dynCount := p.dynCount + 1
        dispq := p.dispq ++ [inst]
        inMispred := inst.mispredict
        fetchedCount := p.fetchedCount + 1
        log := p.log ++ [.fetched rec inst] }

end Pipeline

/-! ## What a core calls -/

/-- A call of the predictor or of the cache. -/
inductive Surroundings.Quiet (S : Surroundings) : S.State → S.State → Prop where
  | predict {o : S.State} (b : Branch) : Quiet S o (S.predict o b).2
  | update {o : S.State} (b : Branch) (prediction : Bool) : Quiet S o (S.update o b prediction)
  | issue {o o' : S.State} {req : Memory.MemReq} {id : Option Nat} (issued : S.l1Issue o req = .ok (id, o')) :
      Quiet S o o'
  | complete {o : S.State} (id : Nat) : Quiet S o (S.l1Complete o id)
  | tick {o : S.State} : Quiet S o (S.l1Tick o)

open Pipeline

/-- A small change with the call that goes with it: the reader delivers what is
    fetched, and the sink is told of a sync record that retires. -/
inductive Acts (S : Surroundings) : S.State × Pipeline → S.State × Pipeline → Prop where
  | call {o o' : S.State} {p : Pipeline} (quiet : S.Quiet o o') : Acts S (o, p) (o', p)
  /-- The reader has nothing to deliver. -/
  | starve {o o' : S.State} {p : Pipeline} (none : S.next o = .ok (none, o')) : Acts S (o, p) (o', p)
  | inside {o : S.State} {p p' : Pipeline} (step : Step p p')
      (unseen : Log.delivered p'.log = Log.delivered p.log ∧ Log.retired p'.log = Log.retired p.log) :
      Acts S (o, p) (o, p')
  | deliver {o o' : S.State} {p p' : Pipeline} {rec : Record} {inst : Inst} (step : Step p p')
      (delivered : S.next o = .ok (some rec, o')) (log : p'.log = p.log ++ [.fetched rec inst]) :
      Acts S (o, p) (o', p')
  | retire {o o' : S.State} {p p' : Pipeline} {inst : Inst} {tag : Nat} (step : Step p p')
      (log : p'.log = p.log ++ [.retired inst tag])
      (told : o' = o ∧ (inst.syncToken = none ∨ inst.mispredict = true) ∨
        ∃ token, inst.syncToken = some token ∧ S.notifyRetire o p.tid token inst.pc = .ok o') :
      Acts S (o, p) (o', p')

/-- A row of small changes. -/
abbrev Runs (S : Surroundings) : S.State × Pipeline → S.State × Pipeline → Prop :=
  Relation.ReflTransGen (Acts S)

variable {S : Surroundings}

theorem Acts.step {v v' : S.State × Pipeline} (acts : Acts S v v') : v'.2 = v.2 ∨ Step v.2 v'.2 := by
  cases acts with
  | call | starve => exact .inl rfl
  | inside step | deliver step | retire step => exact .inr step

theorem Runs.keeps {I : S.State × Pipeline → Prop} (act : ∀ v v', I v → Acts S v v' → I v')
    {v v' : S.State × Pipeline} (runs : Runs S v v') (inv : I v) : I v' := by
  induction runs with
  | refl => exact inv
  | tail _ last ih => exact act _ _ ih last

/-- An invariant of the pipeline's own changes does not depend on the calls. -/
theorem Runs.keeps_pipe {I : Pipeline → Prop} (step : ∀ p p', I p → Step p p' → I p')
    {v v' : S.State × Pipeline} (runs : Runs S v v') (inv : I v.2) : I v'.2 := by
  refine runs.keeps (I := fun v => I v.2) (fun v v' inv acts => ?_) inv
  rcases acts.step with same | changed
  · exact same ▸ inv
  · exact step _ _ inv changed

/-! ## Cores -/

namespace Core

def pipe (c : Core S) : Pipeline where
  cfg := c.cfg
  tid := c.activeTid
  dispq := c.dispq
  sq := c.sq
  rob := c.rob
  rat := c.rat
  pointers := c.units.tags
  inMispred := c.inMispred
  dynCount := c.dynCount
  fetchedCount := c.stats.instructionsFetched
  retiredCount := c.stats.instructionsRetired
  log := c.log

def view (c : Core S) : S.State × Pipeline := (c.outside, c.pipe)

/-! ### Retire -/

theorem trainPredictor_pipe (c : Core S) (inst : Inst) : (c.trainPredictor inst).pipe = c.pipe := by
  unfold trainPredictor
  split <;> rfl

theorem trainPredictor_runs (c : Core S) (inst : Inst) : Runs S c.view (c.trainPredictor inst).view := by
  unfold trainPredictor
  split
  · exact .single (.call (.update ..))
  · exact .refl

theorem retireStep_runs {c c' : Core S} {mispred : Bool} (held : c.rob.count ≠ 0)
    (ready : c.rob.headEntry.ready = true) (ran : c.retireStep = .ok (mispred, c')) :
    Runs S c.view c'.view := by
  have trained := c.trainPredictor_pipe c.rob.headEntry.inst
  refine (c.trainPredictor_runs c.rob.headEntry.inst).trans ?_
  simp only [retireStep] at ran
  generalize c.trainPredictor c.rob.headEntry.inst = t at trained ran ⊢
  have rob : t.rob = c.rob := congrArg Pipeline.rob trained
  rw [← rob] at held ready ran
  split at ran
  · next mispredicted =>
      cases ran
      exact .single (.retire (.flush held ready mispredicted) rfl (.inl ⟨rfl, .inr mispredicted.2⟩))
  · next predicted =>
      split at ran
      · next sync =>
          cases ran
          exact .single (.retire (.retire held ready predicted) rfl (.inl ⟨rfl, .inl sync⟩))
      · next token sync =>
          split at ran
          · cases ran
          · next outside told =>
              cases ran
              exact .single (.retire (.retire held ready predicted) rfl (.inr ⟨token, sync, told⟩))

theorem retireLoop_runs {turns retired : Nat} {c c' : Core S} {mispred : Bool}
    (ran : retireLoop turns c = .ok (retired, mispred, c')) : Runs S c.view c'.view := by
  induction turns generalizing c retired with
  | zero =>
      cases ran
      exact .refl
  | succ turns ih =>
      simp only [retireLoop] at ran
      split at ran
      · cases ran
        exact .refl
      · next more =>
          have held : c.rob.count ≠ 0 := by
            intro none
            simp [CircularBuffer.empty, none] at more
          have ready : c.rob.headEntry.ready = true := by
            by_contra unready
            simp [unready] at more
          split at ran
          · cases ran
          · next stepped =>
              cases ran
              exact retireStep_runs held ready stepped
          · next stepped =>
              split at ran
              · cases ran
              · next looped =>
                  cases ran
                  exact (retireStep_runs held ready stepped).trans (ih looped)

theorem stageStateUpdate_runs {c c' : Core S} {mispred : Bool}
    (ran : c.stageStateUpdate = .ok (mispred, c')) : Runs S c.view c'.view := by
  simp only [stageStateUpdate] at ran
  split at ran
  · cases ran
  · next retired _ after looped =>
      cases ran
      have credited : ∀ empty unready, (creditRetire retired empty unready after.stats).instructionsFetched =
          after.stats.instructionsFetched ∧ (creditRetire retired empty unready
            after.stats).instructionsRetired = after.stats.instructionsRetired := by
        intro empty unready
        unfold creditRetire
        repeat' split
        all_goals exact ⟨rfl, rfl⟩
      have same : ∀ empty unready, Core.view { after with
          stats := creditRetire retired empty unready after.stats } = after.view := by
        intro empty unready
        simp only [view, pipe, credited]
      rw [same]
      exact retireLoop_runs looped

/-! ### Exec -/

theorem writeback_eq {c c' : Core S} {tag : Nat} (ran : c.writeback tag = .ok c') :
    ∃ sched, entryOf c.sq tag = some sched ∧
      c' = { c with
        rat := c.rat.markComplete sched.inst.dest sched.destTag
        rob := c.rob.modify sched.robIdx fun entry => { entry with ready := true }
        sq := eraseByTag (wakeDependents c.sq sched.destTag) sched.destTag
        log := c.log ++ [.wroteBack sched.inst] } := by
  simp only [writeback] at ran
  split at ran
  · cases ran
  · next sched found =>
      cases ran
      exact ⟨sched, found, rfl⟩

theorem completeAlu_runs {c c' : Core S} {unit : Nat} (ran : c.completeAlu unit = .ok c') :
    Runs S c.view c'.view := by
  simp only [completeAlu] at ran
  split at ran
  · next tag here =>
      split at ran
      · cases ran
      · next wrote =>
          obtain ⟨sched, found, rfl⟩ := writeback_eq wrote
          cases ran
          refine .single (.inside (.writeback found ?_) (Log.snoc_unseen trivial))
          simp only [pipe, Units.tags]
          rw [sum_set (fun u : Option Nat => u.elim 0 singleton) tag (y := none) here (by simp)]
          simp only [add_assoc]
  · cases ran
    exact .refl

theorem completeMul_runs {c c' : Core S} {unit : Nat} (ran : c.completeMul unit = .ok c') :
    Runs S c.view c'.view := by
  simp only [completeMul] at ran
  split at ran
  · next stage1 stage2 tag here =>
      split at ran
      · cases ran
      · next wrote =>
          obtain ⟨sched, found, rfl⟩ := writeback_eq wrote
          cases ran
          refine .single (.inside (.writeback found ?_) (Log.snoc_unseen trivial))
          simp only [pipe, Units.tags]
          rw [sum_set MulUnit.tags tag (y := { stage1, stage2, stage3 := none }) here
            (by simp [MulUnit.tags, add_comm])]
          simp only [add_assoc, add_left_comm]
  · cases ran
    exact .refl

theorem pollLsu_runs {c c' : Core S} {unit : Nat} (ran : c.pollLsu unit = .ok c') :
    Runs S c.view c'.view := by
  simp only [pollLsu] at ran
  split at ran
  · next u here =>
      split at ran
      · split at ran
        · cases ran
        · next wrote =>
            obtain ⟨sched, found, rfl⟩ := writeback_eq wrote
            cases ran
            refine .tail (.single (.inside (.writeback found ?_) (Log.snoc_unseen trivial)))
              (.call (.complete u.mshrId))
            simp only [pipe, Units.tags]
            rw [sum_set (fun u : Option LsuUnit => u.elim 0 fun u => {u.sched}) u.sched (y := none) here
              (by simp)]
            simp only [add_left_comm]
      · cases ran
        exact .refl
  · cases ran
    exact .refl

/-- What a step for one unit keeps, the pass over the units keeps. -/
theorem overUnits_keeps {I : Core S → Prop} {step : Core S → Nat → Except String (Core S)}
    {units : List Nat} {c c' : Core S} (each : ∀ c unit c', I c → step c unit = .ok c' → I c')
    (inv : I c) (ran : overUnits step units c = .ok c') : I c' := by
  induction units generalizing c with
  | nil =>
      cases ran
      exact inv
  | cons unit rest ih =>
      simp only [overUnits] at ran
      split at ran
      · cases ran
      · next stepped => exact ih (each _ _ _ inv stepped) ran

theorem overUnits_runs {step : Core S → Nat → Except String (Core S)} {units : List Nat}
    {c c' : Core S} (each : ∀ c unit c', step c unit = .ok c' → Runs S c.view c'.view)
    (ran : overUnits step units c = .ok c') : Runs S c.view c'.view := by
  apply overUnits_keeps (I := fun d => Runs S c.view d.view) _ .refl ran
  intro d unit d' before stepped
  exact before.trans (each d unit d' stepped)

/-! The pass over the multipliers leaves nothing in a third stage, so the shift
loses nothing. -/

theorem completeMul_clears {c c' : Core S} {unit : Nat} (ran : c.completeMul unit = .ok c') :
    c'.units.mul.length = c.units.mul.length ∧
      ∀ j, (j = unit ∨ ∀ u, c.units.mul[j]? = some u → u.stage3 = none) →
        ∀ u, c'.units.mul[j]? = some u → u.stage3 = none := by
  simp only [completeMul] at ran
  split at ran
  · next stage1 stage2 tag here =>
      split at ran
      · cases ran
      · next wrote =>
          obtain ⟨sched, found, rfl⟩ := writeback_eq wrote
          cases ran
          refine ⟨List.length_set, fun j clear u at_j => ?_⟩
          simp only [List.getElem?_set] at at_j
          split at at_j
          · split at at_j
            · cases at_j
              rfl
            · cases at_j
          · next other => exact clear.elim (fun same => absurd same.symm other) fun clear => clear u at_j
  · next empty =>
      cases ran
      refine ⟨rfl, fun j clear u at_j => ?_⟩
      rcases clear with rfl | clear
      · cases stage3 : u.stage3 with
        | none => rfl
        | some tag => exact absurd at_j (by cases u; cases stage3; exact empty _ _ _)
      · exact clear u at_j

theorem overUnits_clears {units : List Nat} {c c' : Core S}
    (ran : overUnits completeMul units c = .ok c') :
    c'.units.mul.length = c.units.mul.length ∧
      ∀ j, (j ∈ units ∨ ∀ u, c.units.mul[j]? = some u → u.stage3 = none) →
        ∀ u, c'.units.mul[j]? = some u → u.stage3 = none := by
  induction units generalizing c with
  | nil =>
      cases ran
      exact ⟨rfl, fun j clear => clear.elim (fun mem => nomatch mem) id⟩
  | cons unit rest ih =>
      simp only [overUnits] at ran
      split at ran
      · cases ran
      · next stepped =>
          obtain ⟨length, clears⟩ := completeMul_clears stepped
          obtain ⟨length', clears'⟩ := ih ran
          refine ⟨length'.trans length, fun j clear => ?_⟩
          rcases clear with mem | clear
          · rcases List.mem_cons.mp mem with rfl | mem
            · exact clears' j (.inr (clears j (.inl rfl)))
            · exact clears' j (.inl mem)
          · exact clears' j (.inr (clears j (.inr clear)))

theorem mul_cleared {c c' : Core S}
    (ran : overUnits completeMul (List.range c.units.mul.length) c = .ok c') :
    ∀ u ∈ c'.units.mul, u.stage3 = none := by
  obtain ⟨length, clears⟩ := overUnits_clears ran
  intro u mem
  obtain ⟨j, bound, at_j⟩ := List.getElem_of_mem mem
  refine clears j (.inl (List.mem_range.mpr (length ▸ bound))) u ?_
  rw [List.getElem?_eq_getElem bound, at_j]

theorem shiftMul_view {c : Core S} (clear : ∀ u ∈ c.units.mul, u.stage3 = none) :
    c.shiftMul.view = c.view := by
  have tags : ∀ u ∈ c.units.mul,
      MulUnit.tags { stage1 := none, stage2 := u.stage1, stage3 := u.stage2 } = u.tags := by
    intro u mem
    simp [MulUnit.tags, clear u mem]
  simp only [view, pipe, shiftMul, Units.tags, List.map_map]
  rw [List.map_congr_left (f := MulUnit.tags ∘ fun u : MulUnit =>
    { stage1 := none, stage2 := u.stage1, stage3 := u.stage2 }) tags]

theorem stageExec_runs {c c' : Core S} (ran : c.stageExec = .ok c') : Runs S c.view c'.view := by
  simp only [stageExec, Bind.bind, Except.bind] at ran
  split at ran
  · cases ran
  · next aluDone =>
      split at ran
      · cases ran
      · next c₁ _ c₂ mulDone =>
          have lsu := overUnits_runs (fun _ _ _ => pollLsu_runs) ran
          rw [shiftMul_view (mul_cleared mulDone)] at lsu
          exact ((overUnits_runs (fun _ _ _ => completeAlu_runs) aluDone).trans
            (overUnits_runs (fun _ _ _ => completeMul_runs) mulDone)).trans lsu

/-! ### Schedule -/

theorem takeOlder_spec {pred : SchedEntry → Bool} {oldest : Option SchedEntry} {e o : SchedEntry}
    (taken : takeOlder pred oldest e = some o) :
    oldest = some o ∨ o = e ∧ e.canFire = true ∧ pred e = true := by
  unfold takeOlder at taken
  split at taken
  · exact .inl taken
  · next fires =>
      have fires : e.canFire = true ∧ pred e = true := by simpa using fires
      split at taken
      · cases taken
        exact .inr ⟨rfl, fires⟩
      · split at taken
        · cases taken
          exact .inr ⟨rfl, fires⟩
        · exact .inl taken

theorem foldl_takeOlder {pred : SchedEntry → Bool} {sq : List SchedEntry} {oldest : Option SchedEntry}
    {o : SchedEntry} (taken : sq.foldl (takeOlder pred) oldest = some o) :
    oldest = some o ∨ o ∈ sq ∧ o.canFire = true ∧ pred o = true := by
  induction sq generalizing oldest with
  | nil => exact .inl taken
  | cons e rest ih =>
      rcases ih taken with first | ⟨mem, fires⟩
      · rcases takeOlder_spec first with old | ⟨rfl, fires⟩
        · exact .inl old
        · exact .inr ⟨List.mem_cons_self, fires⟩
      · exact .inr ⟨List.mem_cons_of_mem _ mem, fires⟩

theorem pickOldest_spec {sq : List SchedEntry} {pred : SchedEntry → Bool} {oldest : SchedEntry}
    (picked : pickOldest sq pred = some oldest) :
    oldest ∈ sq ∧ oldest.canFire = true ∧ pred oldest = true :=
  (foldl_takeOlder picked).resolve_left nofun

/-- One turn of `fireInto`, with the entry it picked. -/
theorem fireOne_runs {free : Units → Bool} {place : Units → Nat → Units} {c : Core S}
    (places : ∀ units tag, free units = true → (place units tag).tags = {tag} + units.tags)
    {oldest : SchedEntry} (queued : oldest ∈ c.sq) (canFire : oldest.canFire = true) :
    Runs S c.view (Core.view <|
      if free c.units then
        { c with
          units := place c.units oldest.destTag
          sq := markBusy c.sq oldest.destTag
          log := c.log ++ [.fired oldest.inst] }
      else c) := by
  split
  · next isFree =>
      have step := Step.fire (p := c.pipe) queued canFire
      simp only [pipe] at step
      rw [← places c.units oldest.destTag isFree] at step
      exact .single (.inside step (Log.snoc_unseen trivial))
  · exact .refl

theorem fireInto_runs {runs : Opcode → Bool} {free : Units → Bool} {place : Units → Nat → Units}
    {avail : Nat} {c : Core S}
    (places : ∀ units tag, free units = true → (place units tag).tags = {tag} + units.tags) :
    Runs S c.view (fireInto runs free place avail c).view := by
  induction avail generalizing c with
  | zero => exact .refl
  | succ avail ih =>
      unfold fireInto
      split
      · exact .refl
      · next oldest picked =>
          obtain ⟨queued, canFire, -⟩ := pickOldest_spec picked
          exact (fireOne_runs places queued canFire).trans ih

theorem placeAlu_tags (units : Units) (tag : Nat) (isFree : units.alu.any (·.isNone) = true) :
    Units.tags { units with alu := Memory.modifyFirst (·.isNone) (fun _ => some tag) units.alu } =
      {tag} + units.tags := by
  have adds := sum_modifyFirst (fun u : Option Nat => u.elim 0 singleton) tag
    (f := fun _ => some tag) isFree (by simp)
  simp only [Units.tags, adds, add_assoc]

theorem placeMul_tags (units : Units) (tag : Nat) (isFree : units.mul.any (·.stage1.isNone) = true) :
    Units.tags { units with
      mul := Memory.modifyFirst (·.stage1.isNone) (fun u => { u with stage1 := some tag }) units.mul } =
      {tag} + units.tags := by
  have adds := sum_modifyFirst MulUnit.tags tag (f := fun u => { u with stage1 := some tag }) isFree
    (by simp +contextual [MulUnit.tags])
  simp only [Units.tags, adds, add_assoc, add_left_comm]

theorem fireAlu_runs (c : Core S) : Runs S c.view c.fireAlu.view := fireInto_runs placeAlu_tags

theorem fireMul_runs (c : Core S) : Runs S c.view c.fireMul.view := fireInto_runs placeMul_tags

/-- What the load-store loop may pick. -/
structure Picked (c : Core S) (oldest : SchedEntry) : Prop where
  queued : oldest ∈ c.sq
  canFire : oldest.canFire = true
  isMem : oldest.inst.opcode.isMem = true
  clear : ambiguous c.sq oldest = false

theorem picked_of {c : Core S} {oldest : SchedEntry}
    (picked : pickOldest c.sq (fun e => e.inst.opcode.isMem && !ambiguous c.sq e) = some oldest) :
    Picked c oldest := by
  obtain ⟨queued, canFire, op⟩ := pickOldest_spec picked
  rw [Bool.and_eq_true, Bool.not_eq_true'] at op
  exact ⟨queued, canFire, op.1, op.2⟩

/-- A call of the cache, whatever it answers. -/
theorem called_runs {c : Core S} {oldest : SchedEntry} (picked : Picked c oldest) {id : Option Nat}
    {outside : S.State} (issued : S.l1Issue c.outside (c.memReq oldest.inst) = .ok (id, outside)) :
    Runs S c.view (Core.view { c with outside, log := c.log ++ [.called oldest.inst] }) :=
  .tail (.single (.call (.issue issued)))
    (.inside (.call (p := c.pipe) picked.queued picked.clear) (Log.snoc_unseen trivial))

/-- An entry whose call was answered goes to a unit. -/
theorem fireLsuPlace_runs {c : Core S} {oldest : SchedEntry} (picked : Picked c oldest)
    (isFree : c.units.lsu.any (·.isNone) = true) (mshrId : Nat) (outside : S.State) :
    Runs S (Core.view { c with outside, log := c.log ++ [.called oldest.inst] }) (Core.view { c with
      outside
      units := { c.units with
        lsu := Memory.modifyFirst (·.isNone)
          (fun _ => some { isLoad := oldest.inst.opcode = .load, mshrId, sched := oldest.destTag })
          c.units.lsu }
      sq := markBusy c.sq oldest.destTag
      log := c.log ++ [.called oldest.inst] ++ [.fired oldest.inst] }) := by
  have adds := sum_modifyFirst (fun u : Option LsuUnit => u.elim 0 fun u => {u.sched})
    oldest.destTag (f := fun _ => some { isLoad := oldest.inst.opcode = .load
                                         mshrId, sched := oldest.destTag }) isFree
    (by simp)
  have step := Step.fire (p := { c.pipe with log := c.log ++ [.called oldest.inst] }) picked.queued
    picked.canFire
  simp only [pipe, Units.tags] at step
  rw [add_left_comm, ← adds] at step
  exact .single (.inside step (Log.snoc_unseen trivial))

/-- One turn of `fireLsuLoop` whose issue succeeds. -/
theorem fireLsuOne_runs {c : Core S} {oldest : SchedEntry} (picked : Picked c oldest)
    (isFree : c.units.lsu.any (·.isNone) = true) {mshrId : Nat} {outside : S.State}
    (issued : S.l1Issue c.outside (c.memReq oldest.inst) = .ok (some mshrId, outside)) :
    Runs S c.view (Core.view { c with
      outside
      units := { c.units with
        lsu := Memory.modifyFirst (·.isNone)
          (fun _ => some { isLoad := oldest.inst.opcode = .load, mshrId, sched := oldest.destTag })
          c.units.lsu }
      sq := markBusy c.sq oldest.destTag
      log := c.log ++ [.called oldest.inst] ++ [.fired oldest.inst] }) :=
  (called_runs picked issued).trans (fireLsuPlace_runs picked isFree mshrId outside)

theorem fireLsuLoop_runs {avail : Nat} {storeFired : Bool} {c c' : Core S}
    (ran : fireLsuLoop avail storeFired c = .ok c') : Runs S c.view c'.view := by
  induction avail generalizing c storeFired with
  | zero =>
      cases ran
      exact .refl
  | succ avail ih =>
      simp only [fireLsuLoop] at ran
      split at ran
      · cases ran
        exact .refl
      · next oldest picked =>
          have picked := picked_of picked
          split at ran
          · cases ran
            exact .refl
          · split at ran
            · cases ran
              exact .refl
            · split at ran
              · exact ih ran
              · next isFree =>
                  split at ran
                  · cases ran
                  · next issued =>
                      cases ran
                      exact called_runs picked issued
                  · next issued =>
                      exact (fireLsuOne_runs picked (by simpa using isFree) issued).trans (ih ran)

theorem stageSchedule_runs {c c' : Core S} (ran : c.stageSchedule = .ok c') :
    Runs S c.view c'.view :=
  (c.fireAlu_runs.trans c.fireAlu.fireMul_runs).trans (fireLsuLoop_runs ran)

/-! ### Dispatch and fetch -/

theorem dispatchOne_runs {c : Core S} {inst : Inst} {rest : List Inst} (next : c.dispq = inst :: rest)
    (room : ¬(c.sq.length ≥ c.cfg.schedqCapacity ∨ c.rob.full = true)) :
    Runs S c.view (c.dispatchOne inst rest).view := by
  rw [not_or, Bool.not_eq_true] at room
  have step : Step c.pipe (c.dispatchOne inst rest).pipe :=
    .dispatch next (Nat.lt_of_not_le room.1) room.2
  exact .single (.inside step (Log.snoc_unseen trivial))

theorem dispatchLoop_runs {width : Nat} {c : Core S} : Runs S c.view (dispatchLoop width c).view := by
  induction width generalizing c with
  | zero => exact .refl
  | succ width ih =>
      unfold dispatchLoop
      split
      · exact .refl
      · next inst rest next =>
          split
          · exact .refl
          · next room => exact (dispatchOne_runs next room).trans ih

theorem predicted_fetchedAs (outside : S.State) (rec : Record) (dynCount : Nat) :
    FetchedAs rec dynCount (predicted outside rec dynCount).1 := by
  unfold predicted
  simp only
  split
  · next branch =>
      exact ⟨classify_dynCount .., classify_syncToken .., classify_memAddr .., fun _ => branch,
        fun _ => classify_plain branch⟩
  · exact ⟨classify_dynCount .., classify_syncToken .., classify_memAddr ..,
      fun mispredict => by simp at mispredict, fun mispredict => by simp at mispredict⟩

theorem predicted_runs (outside : S.State) (rec : Record) (dynCount : Nat) (p : Pipeline) :
    Runs S (outside, p) ((predicted outside rec dynCount).2, p) := by
  unfold predicted
  simp only
  split
  · exact .single (.call (.predict _))
  · exact .refl

theorem fetchOne_runs {c : Core S} (room : c.dispq.length < c.cfg.dispqCapacity)
    (unblocked : c.inMispred = false) {rec : Record} {outside : S.State}
    (delivered : S.next c.outside = .ok (some rec, outside)) :
    Runs S c.view (c.fetchOne rec outside).view := by
  have step := Step.fetch (p := c.pipe) room unblocked (predicted_fetchedAs outside rec (c.dynCount + 1))
  refine .trans (.single (.deliver step delivered rfl)) ?_
  have calls := predicted_runs outside rec (c.dynCount + 1) (c.fetchOne rec outside).pipe
  simp only [view, fetchOne, pipe, unblocked, Bool.false_or] at calls ⊢
  exact calls

theorem fetchLoop_runs {width : Nat} {fetched : Bool} {c c' : Core S} {stall : Option FetchStall}
    (unblocked : c.inMispred = false) (ran : fetchLoop width fetched c = .ok (stall, c')) :
    Runs S c.view c'.view := by
  induction width generalizing c fetched with
  | zero =>
      cases ran
      exact .refl
  | succ width ih =>
      simp only [fetchLoop] at ran
      split at ran
      · cases ran
        exact .refl
      · next room =>
          split at ran
          · cases ran
          · next starved =>
              split at ran
              all_goals
                cases ran
                exact .single (.starve starved)
          · next rec outside delivered =>
              have fetches := fetchOne_runs (Nat.lt_of_not_le room) unblocked delivered
              split at ran
              · cases ran
                exact fetches
              · next again => exact fetches.trans (ih (by simpa using again) ran)

theorem stageFetch_runs {c c' : Core S} (ran : c.stageFetch = .ok c') : Runs S c.view c'.view := by
  simp only [stageFetch] at ran
  split at ran
  · cases ran
    exact .refl
  · next unblocked =>
      split at ran
      · cases ran
        exact .refl
      · split at ran
        · cases ran
        · next stall after looped =>
            cases ran
            have same : Core.view { after with stats := creditFetch stall after.stats } = after.view := by
              rcases stall with _ | stall
              · rfl
              · cases stall <;> rfl
            rw [same]
            exact fetchLoop_runs (by simpa using unblocked) looped

/-! ### Cycles and runs -/

theorem watchdog_view (c : Core S) : c.watchdog.2.view = c.view := by
  simp only [watchdog]
  repeat' split
  all_goals rfl

theorem stages_runs {c c' : Core S} (ran : c.stages = .ok c') : Runs S c.view c'.view := by
  simp only [stages, Bind.bind, Except.bind] at ran
  split at ran
  · cases ran
  · next retired =>
      have first := stageStateUpdate_runs retired
      split at ran
      · cases ran
        exact first
      · split at ran
        · cases ran
        · next executed =>
            split at ran
            · cases ran
            · next scheduled =>
                exact (((first.trans (stageExec_runs executed)).trans
                  (stageSchedule_runs scheduled)).trans dispatchLoop_runs).trans (stageFetch_runs ran)

theorem tick_eq {c c' : Core S} {more : Bool} (ran : c.tick = .ok (more, c')) :
    ∃ staged : Core S, c.stages = .ok staged ∧ c' = staged.closeCycle.watchdog.2 ∧
      more = (!staged.closeCycle.watchdog.1 && !c'.drained) := by
  simp only [tick, Bind.bind, Except.bind] at ran
  split at ran
  · cases ran
  · next staged done =>
      cases ran
      exact ⟨_, done, rfl, rfl⟩

theorem tick_runs {c c' : Core S} {more : Bool} (ran : c.tick = .ok (more, c')) :
    Runs S c.view c'.view := by
  obtain ⟨staged, done, rfl, -⟩ := tick_eq ran
  rw [watchdog_view]
  exact .tail (stages_runs done) (.call .tick)

/-- An invariant of the small changes is one of the core, whatever is around it. -/
theorem pipe_invariant {I : Pipeline → Prop} {cfg : OooConfig} {outside : S.State} {tid : Nat}
    (start : I (make cfg outside tid : Core S).pipe) (step : ∀ p p', I p → Step p p' → I p') {c : Core S}
    (run : (machine S).Reachable (make cfg outside tid) c) : I c.pipe := by
  refine Machine.Run.invariant (I := fun c : Core S => I c.pipe) run start
    fun c action c' inv _ stepped => ?_
  cases action with
  | tick =>
      simp only [machine, Except.map] at stepped
      split at stepped
      · cases stepped
      · next ticked =>
          cases stepped
          exact (tick_runs ticked).keeps_pipe step inv
  | outside state =>
      cases stepped
      exact inv

end Core
end Ooo
