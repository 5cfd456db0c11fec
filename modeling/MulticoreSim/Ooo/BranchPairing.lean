import MulticoreSim.Library.Deposits
import MulticoreSim.Ooo.InOrder
import MulticoreSim.Predictor.HybridParts

/-! # A core that drives the hybrid predictor

Fetch asks the predictor and retire trains it, with many branches between the two.
Each branch finds its own predictions again, and the predictor keeps those of the
branches in flight and no others.
-/

namespace Ooo

open Predictor (Hybrid Pending PredictorConfig makeHybrid)

/-- The branch that the predictor is asked about, and trained on. -/
def Inst.branch (inst : Inst) : Branch :=
  { ip := inst.pc, taken := inst.branchTaken, instNum := inst.dynCount }

def branches (insts : List Inst) : List Branch :=
  (insts.filter (·.opcode = .branch)).map Inst.branch

@[simp] theorem branches_append (front back : List Inst) :
    branches (front ++ back) = branches front ++ branches back := by
  simp [branches]

theorem branches_single {inst : Inst} (branch : inst.opcode = .branch) :
    branches [inst] = [inst.branch] := by
  simp [branches, branch]

theorem branches_other {inst : Inst} (other : inst.opcode ≠ .branch) : branches [inst] = [] := by
  simp [branches, other]

theorem mem_branches {insts : List Inst} {b : Branch} :
    b ∈ branches insts ↔ ∃ inst ∈ insts, inst.opcode = .branch ∧ inst.branch = b := by
  simp [branches, and_assoc]

/-! ## A predictor with its history -/

/-- A call, with the predictor as it found it. -/
inductive Call where
  | predict (before : Hybrid) (b : Branch)
  | update (before : Hybrid) (b : Branch)

structure Recorded where
  hybrid : Hybrid
  calls : List Call := []
  /-- The assertion that ended the program. -/
  failed : Option String := none

namespace Recorded

variable (w : Recorded) (b : Branch)

def predict : Bool × Recorded :=
  let calls := w.calls ++ [Call.predict w.hybrid b]
  match w.hybrid.predict b with
  | .ok (prediction, hybrid) => (prediction, { w with hybrid, calls })
  | .error fault => (false, { w with calls, failed := some fault })

def update : Recorded :=
  let calls := w.calls ++ [Call.update w.hybrid b]
  match w.hybrid.update b with
  | .ok hybrid => { w with hybrid, calls }
  | .error fault => { w with calls, failed := some fault }

/-- The branches that were predicted, with what the two parts said. -/
def asked : List (Branch × Pending) :=
  w.calls.filterMap fun
    | .predict before b => some (b, before.parts b)
    | _ => none

/-- The branches that were trained on, with what was found for them. -/
def settled : List (Branch × Option Pending) :=
  w.calls.filterMap fun
    | .update before b => some (b, before.pending b.instNum)
    | _ => none

variable {w b}

theorem predict_fresh (fresh : w.hybrid.pending b.instNum = none) :
    w.predict b = (w.hybrid.chosen b,
      { w with
        hybrid := { w.hybrid with
          pending := Function.update w.hybrid.pending b.instNum (some (w.hybrid.parts b)) }
        calls := w.calls ++ [.predict w.hybrid b] }) := by
  unfold predict
  rw [Hybrid.predict_fresh fresh]

theorem update_found {p : Pending} (found : w.hybrid.pending b.instNum = some p) :
    w.update b =
      { w with
        hybrid := Hybrid.train { w.hybrid with
          pending := Function.update w.hybrid.pending b.instNum none } b p
        calls := w.calls ++ [.update w.hybrid b] } := by
  unfold update
  rw [Hybrid.update_found found]

end Recorded

/-! ## The books of a predictor -/

/-- Predictions that were `done` have been trained on, in order, each with its own
    answers; those in `flight` wait in the map. -/
structure Paired (w : Recorded) (fetched retired : List Inst) (done flight : List (Branch × Pending)) :
    Prop where
  unfailed : w.failed = none
  fresh : ∀ before b, .predict before b ∈ w.calls → before.pending b.instNum = none
  asked : w.asked = done ++ flight
  settled : w.settled = done.map fun x => (x.1, some x.2)
  fetched : (done ++ flight).map (·.1) = branches fetched
  retired : done.map (·.1) = branches retired
  pending : Deposits w.hybrid.pending (flight.map fun x => (x.1.instNum, x.2))

theorem Recorded.mem_asked {w : Recorded} {b : Branch} {p : Pending} :
    (b, p) ∈ w.asked ↔ ∃ before, .predict before b ∈ w.calls ∧ before.parts b = p := by
  unfold asked
  rw [List.mem_filterMap]
  constructor
  · intro ⟨call, mem, same⟩
    cases call with
    | predict before b' =>
        cases same
        exact ⟨before, mem, rfl⟩
    | update => cases same
  · intro ⟨before, mem, same⟩
    exact ⟨_, mem, same ▸ rfl⟩

theorem Recorded.mem_settled {w : Recorded} {before : Hybrid} {b : Branch}
    (mem : .update before b ∈ w.calls) : (b, before.pending b.instNum) ∈ w.settled :=
  List.mem_filterMap.mpr ⟨_, mem, rfl⟩

namespace Paired

variable {w : Recorded} {fetched retired rest : List Inst} {inst : Inst}
  {done flight : List (Branch × Pending)}

theorem flight_branches (paired : Paired w (retired ++ rest) retired done flight) :
    flight.map (·.1) = branches rest := by
  have all := paired.fetched
  rw [List.map_append, branches_append, paired.retired] at all
  exact List.append_cancel_left all

/-- An update finds what was predicted for its own branch. -/
theorem own (paired : Paired w fetched retired done flight) {before : Hybrid} {b : Branch}
    (mem : .update before b ∈ w.calls) :
    ∃ early, .predict early b ∈ w.calls ∧ before.pending b.instNum = some (early.parts b) := by
  have found := Recorded.mem_settled mem
  rw [paired.settled, List.mem_map] at found
  obtain ⟨⟨b', p⟩, inside, same⟩ := found
  obtain ⟨same, found⟩ := Prod.mk.inj same
  change b' = b at same
  have asked : (b', p) ∈ w.asked := by
    rw [paired.asked]
    exact List.mem_append_left _ inside
  rw [same] at asked
  obtain ⟨early, call, rfl⟩ := Recorded.mem_asked.mp asked
  exact ⟨early, call, found.symm⟩

theorem settled_prefix (paired : Paired w fetched retired done flight) :
    w.settled <+: w.asked.map fun x => (x.1, some x.2) := by
  rw [paired.settled, paired.asked, List.map_append]
  exact List.prefix_append ..

/-- The map holds the branches that were fetched and have not retired. -/
theorem pending_iff (paired : Paired w (retired ++ rest) retired done flight) (n : Nat) :
    (w.hybrid.pending n).isSome = true ↔ ∃ inst ∈ rest, inst.opcode = .branch ∧ inst.dynCount = n := by
  have numbers : (flight.map fun x => (x.1.instNum, x.2)).map (·.1) =
      (branches rest).map Branch.instNum := by
    rw [← paired.flight_branches, List.map_map, List.map_map]
    rfl
  rw [paired.pending.isSome_iff, numbers, List.mem_map]
  constructor
  · intro ⟨b, mem, same⟩
    obtain ⟨inst, inside, branch, rfl⟩ := mem_branches.mp mem
    exact ⟨inst, inside, branch, same⟩
  · intro ⟨inst, mem, branch, same⟩
    exact ⟨inst.branch, mem_branches.mpr ⟨inst, mem, branch, rfl⟩, same⟩

/-- A number in flight is that of a branch that was fetched. -/
theorem keys (paired : Paired w fetched retired done flight) {n : Nat}
    (mem : n ∈ (flight.map fun x => (x.1.instNum, x.2)).map (·.1)) :
    ∃ i ∈ fetched, i.opcode = .branch ∧ i.dynCount = n := by
  rw [List.map_map] at mem
  obtain ⟨x, inside, rfl⟩ := List.mem_map.mp mem
  have mem : x.1 ∈ branches fetched := by
    rw [← paired.fetched]
    exact List.mem_map_of_mem (List.mem_append_right _ inside)
  obtain ⟨i, fetched, branch, same⟩ := mem_branches.mp mem
  exact ⟨i, fetched, branch, congrArg Branch.instNum same⟩

/-- A branch is fetched under a number of its own. -/
theorem predict (paired : Paired w fetched retired done flight) {b : Branch}
    (new : ∀ i ∈ fetched, i.dynCount ≠ b.instNum) (branch : inst.opcode = .branch)
    (same : inst.branch = b) :
    ∃ flight', Paired (w.predict b).2 (fetched ++ [inst]) retired done flight' := by
  have absent : b.instNum ∉ (flight.map fun x => (x.1.instNum, x.2)).map (·.1) := by
    intro mem
    obtain ⟨i, old, -, number⟩ := paired.keys mem
    exact new i old number
  have none := paired.pending.fresh absent
  rw [Recorded.predict_fresh none]
  refine ⟨flight ++ [(b, w.hybrid.parts b)], paired.unfailed, ?_, ?_, ?_, ?_, paired.retired, ?_⟩
  · intro before b' mem
    cases List.mem_append.mp mem with
    | inl old => exact paired.fresh before b' old
    | inr last =>
        cases List.mem_singleton.mp last
        exact none
  · have asked := paired.asked
    unfold Recorded.asked at asked ⊢
    rw [List.filterMap_append, asked, List.append_assoc]
    rfl
  · have settled := paired.settled
    unfold Recorded.settled at settled ⊢
    rw [List.filterMap_append, settled]
    exact List.append_nil _
  · rw [← List.append_assoc, List.map_append, paired.fetched, branches_append, branches_single branch, same]
    rfl
  · rw [List.map_append]
    exact paired.pending.deposit absent

/-- The oldest branch in flight retires. -/
theorem update (paired : Paired w (retired ++ inst :: rest) retired done flight)
    (branch : inst.opcode = .branch) :
    ∃ done' flight',
      Paired (w.update inst.branch) (retired ++ inst :: rest) (retired ++ [inst]) done' flight' := by
  have order := paired.flight_branches
  rw [← List.singleton_append, branches_append, branches_single branch] at order
  cases flight with
  | nil => cases order
  | cons head flight' =>
      obtain ⟨b, p⟩ := head
      have same : b = inst.branch := (List.cons.inj order).1
      subst same
      have deposits := paired.pending
      rw [List.map_cons] at deposits
      have found := @Deposits.found _ _ _ [] _ _ _ deposits
      refine ⟨done ++ [(inst.branch, p)], flight', ?_⟩
      rw [Recorded.update_found found]
      refine ⟨paired.unfailed, ?_, ?_, ?_, ?_, ?_, @Deposits.collect _ _ _ _ [] _ _ _ deposits⟩
      · intro before b' mem
        cases List.mem_append.mp mem with
        | inl old => exact paired.fresh before b' old
        | inr last => cases List.mem_singleton.mp last
      · have asked := paired.asked
        unfold Recorded.asked at asked ⊢
        rw [List.filterMap_append, asked]
        simp
      · have settled := paired.settled
        unfold Recorded.settled at settled ⊢
        rw [List.filterMap_append, settled, List.map_append]
        simp [found]
      · rw [List.append_assoc]
        exact paired.fetched
      · rw [List.map_append, paired.retired, branches_append, branches_single branch]
        rfl

theorem fetch_other (paired : Paired w fetched retired done flight) (other : inst.opcode ≠ .branch) :
    Paired w (fetched ++ [inst]) retired done flight := by
  obtain ⟨unfailed, fresh, asked, settled, all, before, pending⟩ := paired
  refine ⟨unfailed, fresh, asked, settled, ?_, before, pending⟩
  rw [all, branches_append, branches_other other, List.append_nil]

theorem retire_other (paired : Paired w fetched retired done flight) (other : inst.opcode ≠ .branch) :
    Paired w fetched (retired ++ [inst]) done flight := by
  obtain ⟨unfailed, fresh, asked, settled, all, before, pending⟩ := paired
  refine ⟨unfailed, fresh, asked, settled, all, ?_, pending⟩
  rw [before, branches_append, branches_other other, List.append_nil]

end Paired

/-- The head of the buffer has been fetched and has not retired. -/
theorem Pipeline.InOrder.head_next {p : Pipeline} (inv : p.InOrder) (held : p.rob.count ≠ 0) :
    ∃ rest, Log.fetched p.log = (Log.retired p.log).map (·.1) ++ p.rob.headEntry.inst :: rest := by
  refine ⟨(p.rob.pop.toList.map RobEntry.key).map (·.1) ++ p.dispq, ?_⟩
  rw [inv.fetched, inv.head_retires held]
  simp

theorem Pipeline.InOrder.fetched_below {p : Pipeline} (inv : p.InOrder) {inst : Inst}
    (mem : inst ∈ Log.fetched p.log) : inst.dynCount ≤ p.dynCount := by
  have number : inst.dynCount ∈ (Log.fetched p.log).map (·.dynCount) := List.mem_map_of_mem mem
  rw [inv.numbered, List.mem_range'_1] at number
  omega

theorem Runs.inOrder {S : Surroundings} {v v' : S.State × Pipeline} (runs : Runs S v v')
    (order : v.2.InOrder) : v'.2.InOrder :=
  runs.keeps_pipe (fun _ _ inv step => inv.step step) order

/-! ## A core over the predictor -/

/-- What is around a core apart from its predictor. -/
structure Periphery where
  State : Type
  next : State → Except String (Option Record × State)
  blocked : State → Bool
  notifyRetire : State → Nat → SyncToken → Nat → Except String State
  l1Full : State → Bool
  l1Ready : State → Nat → Bool
  l1Issue : State → Memory.MemReq → Except String (Option Nat × State)
  l1Complete : State → Nat → State
  l1Tick : State → State

/-- The surroundings of a core that drives the hybrid predictor. -/
def Periphery.driving (P : Periphery) : Surroundings where
  State := P.State × Recorded
  next o := (P.next o.1).map fun r => (r.1, r.2, o.2)
  blocked o := P.blocked o.1
  notifyRetire o tid token ip := (P.notifyRetire o.1 tid token ip).map fun rest => (rest, o.2)
  predict o b := ((o.2.predict b).1, o.1, (o.2.predict b).2)
  update o b _ := (o.1, o.2.update b)
  l1Full o := P.l1Full o.1
  l1Ready o id := P.l1Ready o.1 id
  l1Issue o req := (P.l1Issue o.1 req).map fun r => (r.1, r.2, o.2)
  l1Complete o id := (P.l1Complete o.1 id, o.2)
  l1Tick o := (P.l1Tick o.1, o.2)

namespace Core

variable {P : Periphery} {c c' : Core P.driving}

def predictor (c : Core P.driving) : Recorded := Prod.snd c.outside

/-- The predictor, with what was fetched and what has retired. -/
def seen (c : Core P.driving) : Recorded × List Inst × List Inst :=
  (c.predictor, Log.fetched c.log, (Log.retired c.log).map (·.1))

/-- The books agree with the core's history. -/
def Paired (c : Core P.driving) : Prop :=
  ∃ done flight, Ooo.Paired c.seen.1 c.seen.2.1 c.seen.2.2 done flight

theorem Paired.same (paired : c.Paired) (seen : c'.seen = c.seen) : c'.Paired := by
  unfold Paired
  rw [seen]
  exact paired

/-! ### Stages that do not call the predictor -/

theorem writeback_seen {tag : Nat} (ran : c.writeback tag = .ok c') : c'.seen = c.seen := by
  obtain ⟨sched, -, rfl⟩ := writeback_eq ran
  simp [seen, predictor]

theorem completeAlu_seen {unit : Nat} (ran : c.completeAlu unit = .ok c') : c'.seen = c.seen := by
  simp only [completeAlu] at ran
  split at ran
  · split at ran
    · cases ran
    · next wrote =>
        have same := writeback_seen wrote
        cases ran
        exact same
  · cases ran
    rfl

theorem completeMul_seen {unit : Nat} (ran : c.completeMul unit = .ok c') : c'.seen = c.seen := by
  simp only [completeMul] at ran
  split at ran
  · split at ran
    · cases ran
    · next wrote =>
        have same := writeback_seen wrote
        cases ran
        exact same
  · cases ran
    rfl

theorem pollLsu_seen {unit : Nat} (ran : c.pollLsu unit = .ok c') : c'.seen = c.seen := by
  simp only [pollLsu] at ran
  split at ran
  · split at ran
    · split at ran
      · cases ran
      · next wrote =>
          have same := writeback_seen wrote
          cases ran
          exact same
    · cases ran
      rfl
  · cases ran
    rfl

theorem stageExec_seen (ran : c.stageExec = .ok c') : c'.seen = c.seen := by
  have each : ∀ step, (∀ c unit c', step c unit = .ok c' → c'.seen = c.seen) →
      ∀ {units} {c c' : Core P.driving}, overUnits step units c = .ok c' → c'.seen = c.seen := by
    intro step keeps units c c' ran
    apply overUnits_keeps (I := fun d => d.seen = c.seen) _ rfl ran
    intro d unit d' before stepped
    exact (keeps d unit d' stepped).trans before
  simp only [stageExec, Bind.bind, Except.bind] at ran
  split at ran
  · cases ran
  · next c₁ aluDone =>
      split at ran
      · cases ran
      · next c₂ mulDone =>
          have alu := each _ (fun _ _ _ => completeAlu_seen) aluDone
          have mul := each _ (fun _ _ _ => completeMul_seen) mulDone
          have lsu := each _ (fun _ _ _ => pollLsu_seen) ran
          exact lsu.trans (mul.trans alu)

theorem fireInto_seen {runs : Opcode → Bool} {free : Units → Bool} {place : Units → Nat → Units}
    {avail : Nat} : (fireInto runs free place avail c).seen = c.seen := by
  induction avail generalizing c with
  | zero => rfl
  | succ avail ih =>
      unfold fireInto
      split
      · rfl
      · rw [ih]
        split
        · simp [seen, predictor]
        · rfl

theorem issue_predictor {req : Memory.MemReq} {id : Option Nat} {outside : P.driving.State}
    (issued : P.driving.l1Issue c.outside req = .ok (id, outside)) : Prod.snd outside = c.predictor := by
  simp only [Periphery.driving, Except.map] at issued
  split at issued
  · cases issued
  · cases issued
    rfl

theorem fireLsuLoop_seen {avail : Nat} {storeFired : Bool} (ran : fireLsuLoop avail storeFired c = .ok c') :
    c'.seen = c.seen := by
  induction avail generalizing c storeFired with
  | zero =>
      cases ran
      rfl
  | succ avail ih =>
      simp only [fireLsuLoop] at ran
      split at ran
      · cases ran
        rfl
      · split at ran
        · cases ran
          rfl
        · split at ran
          · cases ran
            rfl
          · split at ran
            · exact ih ran
            · split at ran
              · cases ran
              · next issued =>
                  cases ran
                  simp [seen, predictor, issue_predictor issued]
              · next issued =>
                  rw [ih ran]
                  simp only [seen, predictor, issue_predictor issued, Log.fetched_snoc,
                    Log.retired_snoc, List.append_nil]

theorem stageSchedule_seen (ran : c.stageSchedule = .ok c') : c'.seen = c.seen :=
  (fireLsuLoop_seen ran).trans (fireInto_seen.trans fireInto_seen)

theorem dispatchLoop_seen {width : Nat} : (dispatchLoop width c).seen = c.seen := by
  induction width generalizing c with
  | zero => rfl
  | succ width ih =>
      unfold dispatchLoop
      split
      · rfl
      · split
        · rfl
        · rw [ih]
          simp [seen, predictor, dispatchOne]

/-! ### Retire -/

theorem trainPredictor_other {inst : Inst} (other : inst.opcode ≠ .branch) : c.trainPredictor inst = c := by
  unfold trainPredictor
  rw [if_neg other]

theorem retireStep_seen {mispred : Bool} (ran : c.retireStep = .ok (mispred, c')) :
    c'.seen = ((c.trainPredictor c.rob.headEntry.inst).predictor, Log.fetched c.log,
      (Log.retired c.log).map (·.1) ++ [c.rob.headEntry.inst]) := by
  have trained := c.trainPredictor_pipe c.rob.headEntry.inst
  have rob : (c.trainPredictor c.rob.headEntry.inst).rob = c.rob := congrArg Pipeline.rob trained
  have log : (c.trainPredictor c.rob.headEntry.inst).log = c.log := congrArg Pipeline.log trained
  simp only [retireStep] at ran
  split at ran
  · cases ran
    simp [seen, predictor, retireHead, rob, log]
  · split at ran
    · cases ran
      simp [seen, predictor, retireHead, rob, log]
    · split at ran
      · cases ran
      · next token sync outside told =>
          have same : Prod.snd outside = (c.trainPredictor c.rob.headEntry.inst).predictor := by
            simp only [Periphery.driving, Except.map] at told
            split at told
            · cases told
            · cases told
              rfl
          cases ran
          simp [seen, predictor, retireHead, rob, log, same]

theorem retireStep_paired {mispred : Bool} (paired : c.Paired) (order : c.pipe.InOrder)
    (held : c.rob.count ≠ 0) (ran : c.retireStep = .ok (mispred, c')) : c'.Paired := by
  obtain ⟨rest, next⟩ := order.head_next held
  obtain ⟨done, flight, paired⟩ := paired
  unfold Core.Paired
  rw [retireStep_seen ran]
  by_cases branch : c.rob.headEntry.inst.opcode = .branch
  · simp only [seen] at paired
    change Log.fetched c.log = _ ++ c.rob.headEntry.inst :: rest at next
    rw [next] at paired ⊢
    have trained : (c.trainPredictor c.rob.headEntry.inst).predictor =
        c.predictor.update c.rob.headEntry.inst.branch := by
      unfold trainPredictor
      rw [if_pos branch]
      rfl
    rw [trained]
    exact paired.update branch
  · rw [trainPredictor_other branch]
    exact ⟨done, flight, paired.retire_other branch⟩

theorem retireLoop_paired {turns retired : Nat} {mispred : Bool} (paired : c.Paired)
    (order : c.pipe.InOrder) (ran : retireLoop turns c = .ok (retired, mispred, c')) : c'.Paired := by
  induction turns generalizing c retired with
  | zero =>
      cases ran
      exact paired
  | succ turns ih =>
      simp only [retireLoop] at ran
      split at ran
      · cases ran
        exact paired
      · next more =>
          simp only [CircularBuffer.empty, Bool.or_eq_true, beq_iff_eq, Bool.not_eq_true', not_or,
            Bool.not_eq_false] at more
          split at ran
          · cases ran
          · next stepped =>
              cases ran
              exact retireStep_paired paired order more.1 stepped
          · next stepped =>
              split at ran
              · cases ran
              · next looped =>
                  cases ran
                  have after := retireStep_paired paired order more.1 stepped
                  have runs := retireStep_runs more.1 more.2 stepped
                  exact ih after (Runs.inOrder runs order) looped

theorem stageStateUpdate_paired {mispred : Bool} (paired : c.Paired) (order : c.pipe.InOrder)
    (ran : c.stageStateUpdate = .ok (mispred, c')) : c'.Paired := by
  simp only [stageStateUpdate] at ran
  split at ran
  · cases ran
  · next looped =>
      have after := retireLoop_paired paired order looped
      cases ran
      exact after.same rfl

/-! ### Fetch -/

theorem next_predictor {rec : Option Record} {outside : P.driving.State}
    (delivered : P.driving.next c.outside = .ok (rec, outside)) : Prod.snd outside = c.predictor := by
  simp only [Periphery.driving, Except.map] at delivered
  split at delivered
  · cases delivered
  · cases delivered
    rfl

theorem fetchOne_paired (paired : c.Paired) (order : c.pipe.InOrder) {rec : Record}
    {outside : P.driving.State} (delivered : P.driving.next c.outside = .ok (some rec, outside)) :
    (c.fetchOne rec outside).Paired := by
  obtain ⟨done, flight, paired⟩ := paired
  have same := next_predictor delivered
  have seen : (c.fetchOne rec outside).seen = (Prod.snd (predicted outside rec (c.dynCount + 1)).2,
      Log.fetched c.log ++ [(predicted outside rec (c.dynCount + 1)).1], (Log.retired c.log).map (·.1)) := by
    simp [Core.seen, predictor, fetchOne]
  unfold Core.Paired
  rw [seen]
  unfold predicted
  dsimp only
  split
  · next branch =>
      have new : ∀ i ∈ Log.fetched c.log, i.dynCount ≠ c.dynCount + 1 := by
        intro i mem
        have below := order.fetched_below mem
        change i.dynCount ≤ c.dynCount at below
        omega
      simp only [Periphery.driving, same]
      exact ⟨done, paired.predict new branch (by simp [Inst.branch])⟩
  · next other =>
      rw [same]
      exact ⟨done, flight, paired.fetch_other other⟩

theorem fetchLoop_paired {width : Nat} {fetched : Bool} {stall : Option FetchStall} (paired : c.Paired)
    (order : c.pipe.InOrder) (unblocked : c.inMispred = false)
    (ran : fetchLoop width fetched c = .ok (stall, c')) : c'.Paired := by
  induction width generalizing c fetched with
  | zero =>
      cases ran
      exact paired
  | succ width ih =>
      simp only [fetchLoop] at ran
      split at ran
      · cases ran
        exact paired
      · next room =>
          split at ran
          · cases ran
          · next starved =>
              have same := next_predictor starved
              split at ran
              all_goals
                cases ran
                exact paired.same (congrArg (·, _) same)
          · next delivered =>
              have after := fetchOne_paired paired order delivered
              split at ran
              · cases ran
                exact after
              · next again =>
                  have runs := fetchOne_runs (Nat.lt_of_not_le room) unblocked delivered
                  exact ih after (Runs.inOrder runs order)
                    (by simpa using again) ran

theorem stageFetch_paired (paired : c.Paired) (order : c.pipe.InOrder) (ran : c.stageFetch = .ok c') :
    c'.Paired := by
  simp only [stageFetch] at ran
  split at ran
  · cases ran
    exact paired.same rfl
  · next unblocked =>
      split at ran
      · cases ran
        exact paired.same rfl
      · split at ran
        · cases ran
        · next looped =>
            have after := fetchLoop_paired paired order (by simpa using unblocked) looped
            cases ran
            exact after.same rfl

/-! ### Cycles -/

theorem stages_paired (paired : c.Paired) (order : c.pipe.InOrder) (ran : c.stages = .ok c') : c'.Paired := by
  simp only [stages, Bind.bind, Except.bind] at ran
  split at ran
  · cases ran
  · next c₁ retired =>
      have updated := stageStateUpdate_paired paired order retired
      have order₁ := Runs.inOrder (stageStateUpdate_runs retired) order
      split at ran
      · cases ran
        exact updated.same rfl
      · split at ran
        · cases ran
        · next executed =>
            split at ran
            · cases ran
            · next scheduled =>
                have runs := (stageExec_runs executed).trans (stageSchedule_runs scheduled)
                have order₂ := Runs.inOrder runs order₁
                have ready := updated.same ((stageSchedule_seen scheduled).trans (stageExec_seen executed))
                exact stageFetch_paired (ready.same dispatchLoop_seen)
                  (Runs.inOrder dispatchLoop_runs order₂) ran

theorem watchdog_seen (c : Core P.driving) : c.watchdog.2.seen = c.seen := by
  simp only [watchdog]
  repeat' split
  all_goals rfl

theorem tick_paired {more : Bool} (paired : c.Paired) (order : c.pipe.InOrder)
    (ran : c.tick = .ok (more, c')) : c'.Paired := by
  obtain ⟨staged, done, rfl, -⟩ := tick_eq ran
  have before := stages_paired paired order done
  exact before.same (watchdog_seen _)

/-- Between the cycles of a core nothing but its predictor is kept from changing. -/
inductive Apart (c : Core P.driving) : Action P.driving → Prop where
  | tick : Apart c .tick
  | outside (rest : P.State) : Apart c (.outside (rest, c.predictor))

end Core

/-! ## Runs -/

section

variable {P : Periphery} {cfg : OooConfig} {pcfg : PredictorConfig} {h : Hybrid} {rest : P.State}
  {tid : Nat} {c : Core P.driving}

/-- A new core beside a new predictor. -/
def Core.driven (cfg : OooConfig) (rest : P.State) (h : Hybrid) (tid : Nat) : Core P.driving :=
  Core.make cfg (rest, { hybrid := h }) tid

theorem Core.paired_start (made : makeHybrid pcfg = .ok h) :
    (Core.driven cfg rest h tid : Core P.driving).Paired := by
  obtain ⟨-, -, idle⟩ := Predictor.makeHybrid_parts made
  refine ⟨[], [], rfl, nofun, rfl, rfl, rfl, rfl, ?_⟩
  change Deposits h.pending []
  rw [idle]
  exact .none

theorem paired_run (made : makeHybrid pcfg = .ok h)
    (run : (machine P.driving).Run Core.Apart (.driven cfg rest h tid) c) : c.Paired := by
  apply run.invariant_under (J := fun c => c.pipe.InOrder) (I := Core.Paired)
  · intro c before
    exact inOrder_run before.reachable
  · exact Core.paired_start made
  · intro c action c' order paired apart stepped
    cases apart with
    | tick =>
        simp only [machine, Except.map] at stepped
        split at stepped
        · cases stepped
        · next ticked =>
            cases stepped
            exact Core.tick_paired paired order ticked
    | outside rest =>
        cases stepped
        exact paired.same rfl

/-- In every run of a core that drives the hybrid predictor no assertion fails. Each
    prediction is made under a number of its own, which the map does not hold; each
    update finds its own branch's two predictions and trains the selector with them, which
    moves the branch's entry towards the part that was right where the two differ; the
    predictions are of the branches as fetched, the updates of those as retired, the one
    list before the other; and the map holds the branches that were fetched and have not
    retired, none once the core is drained. -/
theorem branches_paired (made : makeHybrid pcfg = .ok h)
    (run : (machine P.driving).Run Core.Apart (.driven cfg rest h tid) c) :
    c.predictor.failed = none ∧
      ((∀ before b, .predict before b ∈ c.predictor.calls → before.pending b.instNum = none) ∧
        (c.predictor.asked.map (·.1.instNum)).Nodup) ∧
      (∀ before b, .update before b ∈ c.predictor.calls → ∃ early, .predict early b ∈ c.predictor.calls ∧
        before.pending b.instNum = some (early.parts b) ∧
        before.update b = .ok (Hybrid.train
          { before with pending := Function.update before.pending b.instNum none } b (early.parts b)) ∧
        ∃ after, before.update b = .ok after ∧ before.Trained after b (early.parts b)) ∧
      (c.predictor.asked.map (·.1) = branches (Log.fetched c.log) ∧
        c.predictor.settled.map (·.1) = branches ((Log.retired c.log).map (·.1)) ∧
        c.predictor.settled <+: c.predictor.asked.map fun x => (x.1, some x.2)) ∧
      (∀ n, (c.predictor.hybrid.pending n).isSome = true ↔ ∃ inst ∈ Log.fetched c.log,
        inst ∉ (Log.retired c.log).map (·.1) ∧ inst.opcode = .branch ∧ inst.dynCount = n) ∧
      (c.drained = true → c.predictor.hybrid.pending = fun _ => none) := by
  have order := inOrder_run run.reachable
  obtain ⟨done, flight, paired⟩ := paired_run made run
  change Paired c.predictor (Log.fetched c.log) ((Log.retired c.log).map (·.1)) done flight at paired
  obtain ⟨rest, split⟩ := order.retired_prefix
  change (Log.retired c.log).map (·.1) ++ rest = Log.fetched c.log at split
  have asked : c.predictor.asked.map (·.1) = branches (Log.fetched c.log) := by
    rw [paired.asked]
    exact paired.fetched
  have numbers : ((Log.fetched c.log).map (·.dynCount)).Nodup := by
    have numbered : (Log.fetched c.log).map (·.dynCount) = List.range' 1 c.dynCount := order.numbered
    rw [numbered]
    exact List.nodup_range'
  have distinct : (Log.fetched c.log).Nodup := numbers.of_map
  rw [← split] at paired
  refine ⟨paired.unfailed, ⟨paired.fresh, ?_⟩, ?_, ⟨asked, ?_, paired.settled_prefix⟩, ?_, ?_⟩
  · have sub : ((c.predictor.asked.map (·.1)).map Branch.instNum).Nodup := by
      rw [asked]
      unfold branches
      rw [List.map_map]
      exact numbers.sublist (List.filter_sublist.map _)
    rw [List.map_map] at sub
    exact sub
  · intro before b mem
    obtain ⟨early, call, found⟩ := paired.own mem
    exact ⟨early, call, found, Hybrid.update_found found, Hybrid.update_trained found⟩
  · rw [paired.settled, List.map_map]
    exact paired.retired
  · intro n
    rw [paired.pending_iff]
    rw [← split] at distinct ⊢
    have apart := List.disjoint_of_nodup_append distinct
    constructor
    · intro ⟨inst, mem, known⟩
      exact ⟨inst, List.mem_append_right _ mem, fun old => apart old mem, known⟩
    · intro ⟨inst, mem, young, known⟩
      exact ⟨inst, (List.mem_append.mp mem).resolve_left young, known⟩
  · intro drained
    simp only [Core.drained, Bool.and_eq_true, List.isEmpty_iff, CircularBuffer.empty, beq_iff_eq]
      at drained
    obtain ⟨⟨⟨-, dispq⟩, rob⟩, -⟩ := drained
    have all : (Log.retired c.log).map (·.1) = Log.fetched c.log := order.all_retired dispq rob
    have empty : rest = [] := by
      rw [← all] at split
      exact List.append_right_eq_self.mp split
    funext n
    rw [← Option.not_isSome_iff_eq_none, paired.pending_iff, empty]
    simp

end

/-- A reader over a list, and a cache that always hits. -/
def Periphery.listed : Periphery where
  State := List Record
  next
    | [] => .ok (none, [])
    | record :: rest => .ok (some record, rest)
  blocked _ := false
  notifyRetire records _ _ _ := .ok records
  l1Full _ := false
  l1Ready _ _ := true
  l1Issue records _ := .ok (some 1, records)
  l1Complete records _ := records
  l1Tick records := records

/-- A core one cycle behind the fetch of two branches that are not taken. -/
def twoBranches (h : Hybrid) : Core Periphery.listed.driving :=
  (machine _).attempt
    (.driven {} ([{ ip := 4, isBranch := true }, { ip := 8, isBranch := true }] : List Record) h 0) [.tick]

theorem branches_paired_two_in_flight : ∃ h, makeHybrid {} = .ok h ∧
    (twoBranches h).predictor.failed = none ∧
    ((twoBranches h).predictor.hybrid.pending 1).isSome = true ∧
    ((twoBranches h).predictor.hybrid.pending 2).isSome = true := by
  have valid : ∃ h, makeHybrid {} = .ok h := Predictor.makeHybrid_ok_iff.mpr (by decide)
  obtain ⟨h, made⟩ := valid
  have run : (machine _).Run Core.Apart
      (.driven {} ([{ ip := 4, isBranch := true }, { ip := 8, isBranch := true }] : List Record) h 0)
      (twoBranches h) := by
    apply Machine.Run.start.attempt_all
    intro action mem c
    rw [List.mem_singleton.mp mem]
    exact .tick
  obtain ⟨unfailed, -, -, -, pending, -⟩ := branches_paired made run
  refine ⟨h, made, unfailed, (pending 1).mpr ?_, (pending 2).mpr ?_⟩
  all_goals
    cases made
    decide +kernel

end Ooo
