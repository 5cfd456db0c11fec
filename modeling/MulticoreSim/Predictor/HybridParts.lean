import MulticoreSim.Predictor.Predictors

/-! # The hybrid and its parts

Driven branch by branch, the hybrid keeps its two parts as they would be alone,
answers as one of them does, and moves one entry of its selector only when they
disagree.
-/

namespace Predictor

open Ooo (Branch Record)

variable {cfg : PredictorConfig} {h h' : Hybrid} {b : Branch}

/-! ## Valid configurations -/

theorem makeYehPatt_ok_iff {p : YehPatt} : makeYehPatt cfg = .ok p ↔
    (inRange cfg.historyBits 1 20 = true ∧ inRange cfg.patternBits 1 20 = true) ∧
      p = .make cfg.historyBits.toNat cfg.patternBits.toNat := by
  unfold makeYehPatt
  cases inRange cfg.historyBits 1 20 <;> cases inRange cfg.patternBits 1 20 <;> simp [eq_comm]

theorem makePerceptron_ok_iff {p : Perceptron} : makePerceptron cfg = .ok p ↔
    (inRange cfg.perceptronHistoryBits 1 30 = true ∧ inRange cfg.perceptronIndexBits 1 20 = true) ∧
      p = .make cfg.perceptronHistoryBits.toNat cfg.perceptronIndexBits.toNat := by
  unfold makePerceptron
  cases inRange cfg.perceptronHistoryBits 1 30 <;> cases inRange cfg.perceptronIndexBits 1 20 <;>
    simp [eq_comm]

theorem initValueFor_le {hybridInit : Int} {bits : Nat} (some : 1 ≤ bits) :
    Hybrid.initValueFor hybridInit bits ≤ 2 ^ bits - 1 := by
  obtain ⟨n, rfl⟩ := Nat.exists_eq_add_of_le some
  have half : 2 ^ (1 + n - 1) = 2 ^ n := by rw [Nat.add_sub_cancel_left]
  have double : 2 ^ (1 + n) = 2 * 2 ^ n := by rw [Nat.pow_add, Nat.pow_one]
  have positive := Nat.two_pow_pos n
  unfold Hybrid.initValueFor
  simp only [half, double]
  split <;> omega

/-- The constructor's own check of its counters cannot fail behind the factory's. -/
theorem makeHybrid_ok_iff : (∃ h, makeHybrid cfg = .ok h) ↔
    inRange cfg.tournamentIndexBits 1 24 = true ∧ inRange cfg.tournamentCounterBits 2 8 = true ∧
      inRange cfg.hybridInit 0 3 = true ∧ inRange cfg.historyBits 1 20 = true ∧
      inRange cfg.patternBits 1 20 = true ∧ inRange cfg.perceptronHistoryBits 1 30 = true ∧
      inRange cfg.perceptronIndexBits 1 20 = true := by
  constructor
  · intro ⟨h, made⟩
    unfold makeHybrid at made
    split at made
    · cases made
    · next valid =>
        simp only [Bool.or_eq_true, Bool.not_eq_true', not_or, Bool.not_eq_false] at valid
        obtain ⟨⟨index, counter⟩, init⟩ := valid
        simp only [Hybrid.make, Bind.bind, Except.bind] at made
        split at made
        · cases made
        · next yp =>
            split at made
            · cases made
            · next pct =>
                obtain ⟨⟨history, pattern⟩, -⟩ := makeYehPatt_ok_iff.mp yp
                obtain ⟨⟨global, weights⟩, -⟩ := makePerceptron_ok_iff.mp pct
                exact ⟨index, counter, init, history, pattern, global, weights⟩
  · intro ⟨index, counter, init, history, pattern, global, weights⟩
    have yp := makeYehPatt_ok_iff.mpr ⟨⟨history, pattern⟩, rfl⟩
    have pct := makePerceptron_ok_iff.mpr ⟨⟨global, weights⟩, rfl⟩
    have bits : 1 ≤ cfg.tournamentCounterBits.toNat ∧ cfg.tournamentCounterBits.toNat ≤ 31 := by
      simp only [inRange, Bool.and_eq_true, decide_eq_true_eq] at counter
      omega
    have fits := @initValueFor_le cfg.hybridInit _ bits.1
    simp [makeHybrid, Hybrid.make, index, counter, init, yp, pct, SaturatingCounter.make, bits, fits,
      Bind.bind, Except.bind, Pure.pure, Except.pure]

/-- A new hybrid has the parts that the factories make, and nothing in flight. -/
theorem makeHybrid_parts (made : makeHybrid cfg = .ok h) :
    makeYehPatt cfg = .ok h.yp ∧ makePerceptron cfg = .ok h.pct ∧ h.pending = fun _ => none := by
  unfold makeHybrid at made
  split at made
  · cases made
  · simp only [Hybrid.make, Bind.bind, Except.bind] at made
    split at made
    · cases made
    · next yp =>
        split at made
        · cases made
        · next pct =>
            split at made
            · cases made
            · cases made
              exact ⟨yp, pct, rfl⟩

/-! ## One branch -/

namespace Hybrid

/-- The answer of the part that the selector points to. -/
def chosen (h : Hybrid) (b : Branch) : Bool :=
  if (h.tnmtTable (h.tnmtIdx b)).isTaken then h.pct.predict b else h.yp.predict b

theorem chosen_part (h : Hybrid) (b : Branch) :
    h.chosen b = h.yp.predict b ∨ h.chosen b = h.pct.predict b := by
  unfold chosen
  split
  · exact .inr rfl
  · exact .inl rfl

theorem predict_fresh (fresh : h.pending b.instNum = none) :
    h.predict b = .ok (h.chosen b,
      { h with pending := Function.update h.pending b.instNum (some (h.parts b)) }) := by
  unfold predict
  rw [fresh]
  rfl

theorem update_found {p : Pending} (found : h.pending b.instNum = some p) :
    h.update b = .ok (train { h with pending := Function.update h.pending b.instNum none } b p) := by
  unfold update
  rw [found]

@[simp] theorem train_pending (p : Pending) : (h.train b p).pending = h.pending := rfl

@[simp] theorem train_yp (p : Pending) : (h.train b p).yp = h.yp.update b := rfl

@[simp] theorem train_pct (p : Pending) : (h.train b p).pct = h.pct.update b p.pct := rfl

/-- Agreement says nothing about which part to trust. -/
theorem train_agreed {p : Pending} (agree : p.yp = p.pct) : (h.train b p).tnmtTable = h.tnmtTable := by
  simp [train, agree]

theorem train_other {p : Pending} {i : Nat} (other : i ≠ h.tnmtIdx b) :
    (h.train b p).tnmtTable i = h.tnmtTable i := by
  unfold train
  dsimp only
  split
  · exact Function.update_of_ne other ..
  · rfl

/-- A disagreement moves the branch's entry by one towards the part that was right. -/
theorem train_disagreed {p : Pending} (differ : p.yp ≠ p.pct) :
    ((h.train b p).tnmtTable (h.tnmtIdx b)).value =
      let entry := h.tnmtTable (h.tnmtIdx b)
      if p.pct = b.taken then min (entry.value + 1) entry.max else entry.value - 1 := by
  have right : (if p.yp = b.taken then false else true) = decide (p.pct = b.taken) := by
    cases yp : p.yp <;> cases pct : p.pct <;> cases b.taken <;> simp_all
  simp only [train, if_pos differ, right, Function.update_self, SaturatingCounter.update_value,
    decide_eq_true_eq]

/-- What an update makes of the predictor when `p` are the branch's two predictions. Each
    part learns the branch; a disagreement moves the branch's own entry of the selector by
    one towards the part that was right, and no other entry is touched. -/
structure Trained (before after : Hybrid) (b : Branch) (p : Pending) : Prop where
  pending : after.pending = Function.update before.pending b.instNum none
  yp : after.yp = before.yp.update b
  pct : after.pct = before.pct.update b p.pct
  mask : after.tnmtMask = before.tnmtMask
  agreed : p.yp = p.pct → after.tnmtTable = before.tnmtTable
  disagreed : p.yp ≠ p.pct → (after.tnmtTable (before.tnmtIdx b)).value =
    let entry := before.tnmtTable (before.tnmtIdx b)
    if p.pct = b.taken then min (entry.value + 1) entry.max else entry.value - 1
  other : ∀ i, i ≠ before.tnmtIdx b → after.tnmtTable i = before.tnmtTable i

theorem update_trained {p : Pending} (found : h.pending b.instNum = some p) : ∃ after,
    h.update b = .ok after ∧ h.Trained after b p := by
  refine ⟨_, update_found found, ?_⟩
  exact {
    pending := rfl
    yp := rfl
    pct := rfl
    mask := rfl
    agreed := train_agreed
    disagreed := train_disagreed
    other := fun i => train_other }

/-- Predict a branch and train on it at once. -/
def taught (h : Hybrid) (b : Branch) : Hybrid := h.train b (h.parts b)

theorem predict_update (idle : h.pending = fun _ => none) :
    ∃ during, h.predict b = .ok (h.chosen b, during) ∧ during.update b = .ok (h.taught b) := by
  have fresh : h.pending b.instNum = none := congrFun idle _
  refine ⟨_, predict_fresh fresh, ?_⟩
  have found : Function.update h.pending b.instNum (some (h.parts b)) b.instNum = some (h.parts b) :=
    Function.update_self ..
  rw [update_found found, Function.update_idem, ← fresh, Function.update_eq_self]
  rfl

end Hybrid

/-! ## Sequences of branches -/

/-- Predict each branch and then train on it: the answers, and the predictor after them. -/
def drive : List Branch → BranchPredictor → Except String (List Bool × BranchPredictor)
  | [], pred => .ok ([], pred)
  | b :: rest, pred =>
      match pred.predict b with
      | .error fault => .error fault
      | .ok (prediction, pred) =>
          match pred.update b prediction with
          | .error fault => .error fault
          | .ok pred => (drive rest pred).map fun r => (prediction :: r.1, r.2)

/-- The branches of a trace behind `records` records, numbered by record. -/
def branchesOf : List Record → Nat → List Branch
  | [], _ => []
  | rec :: rest, records =>
      if rec.isBranch then
        { ip := rec.ip, taken := rec.branchTaken, instNum := records + 1 } :: branchesOf rest (records + 1)
      else branchesOf rest (records + 1)

/-- The loop of predictor mode drives the branches of its trace. -/
theorem runPredictorMode_drives (recs : List Record) (pred : BranchPredictor) (s : Stats) :
    (runPredictorMode recs pred s).map (·.1) = (drive (branchesOf recs s.records) pred).map (·.2) := by
  induction recs generalizing pred s with
  | nil => rfl
  | cons rec rest ih =>
      have records : ∀ prediction taken, ({ s with records := s.records + 1 }.score prediction taken).records =
          s.records + 1 := by
        intro prediction taken
        unfold Stats.score
        split <;> rfl
      unfold runPredictorMode branchesOf
      cases branch : rec.isBranch with
      | false =>
          simp only [Bool.false_eq_true, if_false]
          exact ih ..
      | true =>
          simp only [if_true, drive]
          cases pred.predict { ip := rec.ip, taken := rec.branchTaken, instNum := s.records + 1 } with
          | error fault => rfl
          | ok answer =>
              obtain ⟨prediction, asked⟩ := answer
              simp only
              cases asked.update { ip := rec.ip, taken := rec.branchTaken, instNum := s.records + 1 }
                prediction with
              | error fault => rfl
              | ok trained =>
                  simp only
                  rw [ih, records]
                  cases drive (branchesOf rest (s.records + 1)) trained <;> rfl

/-- A hybrid with nothing in flight goes on as its parts do, each driven alone. -/
theorem drive_parts (branches : List Branch) (idle : h.pending = fun _ => none) :
    ∃ h' : Hybrid, h'.pending = (fun _ => none) ∧
      (drive branches (.hybrid h)).map (·.2) = .ok (.hybrid h') ∧
      (drive branches (.yehPatt h.yp)).map (·.2) = .ok (.yehPatt h'.yp) ∧
      (drive branches (.perceptron h.pct)).map (·.2) = .ok (.perceptron h'.pct) := by
  induction branches generalizing h with
  | nil => exact ⟨h, idle, rfl, rfl, rfl⟩
  | cons b rest ih =>
      have after : (h.taught b).pending = fun _ => none := idle
      obtain ⟨h', quiet, whole, yp, pct⟩ := ih after
      obtain ⟨during, asked, trained⟩ := Hybrid.predict_update (b := b) idle
      have skip : ∀ {answer : Bool} (r : Except String (List Bool × BranchPredictor)),
          (r.map fun r => (answer :: r.1, r.2)).map (·.2) = r.map (·.2) := by
        intro answer r
        cases r <;> rfl
      refine ⟨h', quiet, ?_, ?_, ?_⟩
      · simp only [drive, BranchPredictor.predict, asked, Except.map, BranchPredictor.update, trained]
        exact (skip _).trans whole
      · simp only [drive, BranchPredictor.predict, BranchPredictor.update]
        exact (skip _).trans yp
      · simp only [drive, BranchPredictor.predict, BranchPredictor.update]
        exact (skip _).trans pct

/-- For every valid configuration and every sequence of branches, each predicted and
    then trained on: the hybrid's parts are what the standalone predictors are after
    the same sequence; on the next branch it answers as one of them, and as both where
    they agree; and training leaves the selector alone where they agree and else moves
    the branch's entry alone, one saturating step towards the part that was right. The
    loop of predictor mode drives its trace's branches so. -/
theorem hybrid_composes (made : makeHybrid cfg = .ok h) (branches : List Branch) (b : Branch) :
    (∀ recs s, (runPredictorMode recs (.hybrid h) s).map (·.1) =
        (drive (branchesOf recs s.records) (.hybrid h)).map (·.2)) ∧
      ∃ h' yp pct, (drive branches (.hybrid h)).map (·.2) = .ok (.hybrid h') ∧
        (makeYehPatt cfg).bind (fun p => (drive branches (.yehPatt p)).map (·.2)) = .ok (.yehPatt yp) ∧
        (makePerceptron cfg).bind (fun p => (drive branches (.perceptron p)).map (·.2)) =
          .ok (.perceptron pct) ∧
        h'.yp = yp ∧ h'.pct = pct ∧
        ∃ answer during next, h'.predict b = .ok (answer, during) ∧ during.update b = .ok next ∧
          during.yp = yp ∧ during.pct = pct ∧ next.yp = yp.update b ∧
          next.pct = pct.update b (pct.predict b) ∧
          (answer = yp.predict b ∨ answer = pct.predict b) ∧
          (yp.predict b = pct.predict b → answer = yp.predict b ∧ next.tnmtTable = h'.tnmtTable) ∧
          (∀ i ≠ h'.tnmtIdx b, next.tnmtTable i = h'.tnmtTable i) ∧
          (yp.predict b ≠ pct.predict b → (next.tnmtTable (h'.tnmtIdx b)).value =
            let entry := h'.tnmtTable (h'.tnmtIdx b)
            if pct.predict b = b.taken then min (entry.value + 1) entry.max else entry.value - 1) := by
  obtain ⟨madeYp, madePct, idle⟩ := makeHybrid_parts made
  obtain ⟨h', quiet, whole, yp, pct⟩ := drive_parts branches idle
  obtain ⟨during, asked, trained⟩ := Hybrid.predict_update (b := b) quiet
  have kept : during.yp = h'.yp ∧ during.pct = h'.pct := by
    rw [Hybrid.predict_fresh (congrFun quiet _)] at asked
    cases asked
    exact ⟨rfl, rfl⟩
  refine ⟨fun recs s => runPredictorMode_drives recs _ s, h', h'.yp, h'.pct, whole, ?_, ?_, rfl, rfl,
    h'.chosen b, during, h'.taught b, asked, trained, kept.1, kept.2, rfl, rfl, h'.chosen_part b, ?_, ?_, ?_⟩
  · rw [madeYp]
    exact yp
  · rw [madePct]
    exact pct
  · intro agree
    refine ⟨?_, Hybrid.train_agreed agree⟩
    rcases h'.chosen_part b with same | same
    · exact same
    · exact same.trans agree.symm
  · intro i other
    exact Hybrid.train_other other
  · intro differ
    exact Hybrid.train_disagreed differ

/-- Behind one taken branch Yeh-Patt has a new history to learn, and the perceptron
    expects another: the selector moves from 8 to 9. -/
theorem hybrid_composes_taken_twice : ∃ h h' during next : Hybrid, ∃ answer, makeHybrid {} = .ok h ∧
    (drive [⟨64, true, 1⟩] (.hybrid h)).map (·.2) = .ok (.hybrid h') ∧
    h'.predict ⟨64, true, 2⟩ = .ok (answer, during) ∧ during.update ⟨64, true, 2⟩ = .ok next ∧
    (next.tnmtTable 16).value = 9 := by
  have made : ∃ h, makeHybrid {} = .ok h := makeHybrid_ok_iff.mpr (by decide)
  obtain ⟨h, made⟩ := made
  obtain ⟨-, h', yp, pct, whole, -, -, rfl, rfl, answer, during, next, asked, trained, -, -, -, -, -, -, -,
    moved⟩ := hybrid_composes made [⟨64, true, 1⟩] ⟨64, true, 2⟩
  refine ⟨h, h', during, next, answer, made, whole, asked, trained, ?_⟩
  cases made
  cases whole
  exact (moved (by decide +kernel)).trans (by decide +kernel)

end Predictor
