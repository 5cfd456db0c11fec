import MulticoreSim.Ooo.Core

/-! # Branch predictors

Yeh-Patt, the perceptron and the hybrid of both, as the factory makes them, and
the loop of predictor mode. A table is a function on its indices: every index is
masked to the table's size.
-/

namespace Predictor

open Ooo (Branch Record)

structure PredictorConfig where
  type : String := "yeh_patt"
  historyBits : Int := 10
  patternBits : Int := 5
  perceptronHistoryBits : Int := 9
  perceptronIndexBits : Int := 7
  hybridInit : Int := 2
  tournamentIndexBits : Int := 12
  tournamentCounterBits : Int := 4
  deriving DecidableEq, Repr

def inRange (x lo hi : Int) : Bool := x ≥ lo && x ≤ hi

/-- `(1ull << bits) - 1ull`. -/
def maskOf (bits : Nat) : Nat := 2 ^ bits - 1

/-- The low bits of an address, without its last two. -/
def index (ip mask : Nat) : Nat := (ip >>> 2) &&& mask

/-! ## Saturating counters -/

/-- A counter of some bits, never above its largest value. -/
structure SaturatingCounter where
  bits : Nat
  value : Nat
  inRange : 1 ≤ bits ∧ bits ≤ 31
  le_max : value ≤ 2 ^ bits - 1
  deriving DecidableEq, Repr

namespace SaturatingCounter

def make (bits init : Nat) : Except String SaturatingCounter :=
  if range : 1 ≤ bits ∧ bits ≤ 31 then
    if fits : init ≤ 2 ^ bits - 1 then .ok { bits, value := init, inRange := range, le_max := fits }
    else
      .error s!"SaturatingCounter: init {init} exceeds max {2 ^ bits - 1} for {bits}-bit counter"
  else .error s!"SaturatingCounter: bits must be in [1, 31] (got {bits})"

variable (c : SaturatingCounter) (taken : Bool)

def max : Nat := 2 ^ c.bits - 1

def isTaken : Bool := c.value ≥ 2 ^ (c.bits - 1)

/-- One step up or down, which stops at either end. -/
def update : SaturatingCounter :=
  if up : taken = true ∧ c.value < c.max then
    { c with value := c.value + 1, le_max := up.2 }
  else if taken = false ∧ c.value > 0 then
    { c with value := c.value - 1, le_max := Nat.le_trans (Nat.sub_le ..) c.le_max }
  else c

@[simp] theorem update_bits : (c.update taken).bits = c.bits := by
  unfold update
  split
  · rfl
  · split <;> rfl

theorem update_value :
    (c.update taken).value = if taken then min (c.value + 1) c.max else c.value - 1 := by
  have top : c.value ≤ c.max := c.le_max
  unfold update
  cases taken with
  | true =>
      split
      · next up =>
          have up := up.2
          simp only [if_true]
          omega
      · next full =>
          have full : ¬c.value < c.max := fun below => full ⟨rfl, below⟩
          simp only [if_true, reduceCtorEq, false_and, if_false]
          omega
  | false =>
      simp only [reduceCtorEq, false_and, dite_false, true_and, if_false]
      split
      · rfl
      · omega

end SaturatingCounter

/-! ## Yeh-Patt -/

structure YehPatt where
  htMask : Nat
  ptMask : Nat
  historyTable : Nat → Nat
  patternTable : Nat → SaturatingCounter

namespace YehPatt

def make (historyBits patternBits : Nat) : YehPatt where
  htMask := maskOf historyBits
  ptMask := maskOf patternBits
  historyTable _ := 0
  -- Weakly not taken.
  patternTable _ := { bits := 2, value := 1, inRange := by decide, le_max := by decide }

variable (p : YehPatt) (b : Branch)

/-- The index into the pattern table that a branch's history gives. -/
def ptIdx : Nat := p.historyTable (index b.ip p.htMask) &&& p.ptMask

def predict : Bool := (p.patternTable (p.ptIdx b)).isTaken

def update : YehPatt :=
  let htIdx := index b.ip p.htMask
  let ptIdx := p.ptIdx b
  { p with
    patternTable := Function.update p.patternTable ptIdx ((p.patternTable ptIdx).update b.taken)
    historyTable := Function.update p.historyTable htIdx
      (((p.historyTable htIdx <<< 1) ||| b.taken.toNat) &&& p.ptMask) }

end YehPatt

/-! ## Perceptron -/

structure Perceptron where
  historyBits : Nat
  theta : Int
  pctMask : Nat
  ghr : Nat
  /-- The weights of each perceptron, its bias first. -/
  table : Nat → Nat → Int

namespace Perceptron

/-- The threshold is `floor(1.93 * G + 14)`. -/
def make (historyBits indexBits : Nat) : Perceptron where
  historyBits
  theta := (193 * historyBits + 1400) / 100
  pctMask := maskOf indexBits
  ghr := 0
  table _ _ := 0

variable (p : Perceptron) (b : Branch)

/-- The input of a history bit: one if taken, minus one if not. -/
def sign (taken : Bool) : Int := if taken then 1 else -1

/-- Bit `i` of the history register as an input. -/
def input (i : Nat) : Int := sign (p.ghr.testBit i)

def dotProduct (idx : Nat) : Int :=
  (List.range p.historyBits).foldl (fun sum i => sum + p.table idx (i + 1) * p.input i) (p.table idx 0)

/-- `std::clamp` between minus the threshold and the threshold. -/
def clamp (w : Int) : Int := if w < -p.theta then -p.theta else if p.theta < w then p.theta else w

def predict : Bool := p.dotProduct (index b.ip p.pctMask) > 0

/-- The weights of a perceptron after training towards an outcome. -/
def train (idx : Nat) (t : Int) : Nat → Int
  | 0 => p.clamp (p.table idx 0 + t)
  | i + 1 =>
      if i < p.historyBits then p.clamp (p.table idx (i + 1) + t * p.input i) else p.table idx (i + 1)

/-- A perceptron trains when the prediction was wrong or its output is weak. -/
def update (prediction : Bool) : Perceptron :=
  let idx := index b.ip p.pctMask
  let output := p.dotProduct idx
  { p with
    table :=
      if prediction ≠ b.taken ∨ |output| < p.theta then
        Function.update p.table idx (p.train idx (sign b.taken))
      else p.table
    ghr := ((p.ghr <<< 1) ||| b.taken.toNat) % 2 ^ 64 }

end Perceptron

/-! ## Hybrid -/

/-- What the two parts predicted for a branch in flight. -/
structure Pending where
  yp : Bool
  pct : Bool
  deriving DecidableEq, Repr

structure Hybrid where
  yp : YehPatt
  pct : Perceptron
  tnmtMask : Nat
  tnmtTable : Nat → SaturatingCounter
  /-- The map by instruction number. -/
  pending : Nat → Option Pending

namespace Hybrid

/-- `init_value_for`. -/
def initValueFor (hybridInit : Int) (counterBits : Nat) : Nat :=
  let half := 2 ^ (counterBits - 1)
  let max := 2 ^ counterBits - 1
  match hybridInit with
  | 0 => 0
  | 1 => half - 1
  | 2 => half
  | 3 => max
  | _ => half

variable (h : Hybrid) (b : Branch)

/-- What the parts predict for a branch. -/
def parts : Pending := { yp := h.yp.predict b, pct := h.pct.predict b }

def tnmtIdx : Nat := index b.ip h.tnmtMask

/-- Both parts predict, the selector picks one, and both answers wait for the update.
    The error is the assertion. -/
def predict : Except String (Bool × Hybrid) :=
  let p := h.parts b
  let usePerceptron := (h.tnmtTable (h.tnmtIdx b)).isTaken
  match h.pending b.instNum with
  | some _ => .error "Hybrid::predict: duplicate inst_num in flight"
  | none =>
      .ok (if usePerceptron then p.pct else p.yp,
        { h with pending := Function.update h.pending b.instNum (some p) })

/-- Train the selector and the parts on a branch with the parts' own predictions. -/
def train (p : Pending) : Hybrid :=
  let idx := h.tnmtIdx b
  { h with
    tnmtTable :=
      if p.yp ≠ p.pct then
        Function.update h.tnmtTable idx ((h.tnmtTable idx).update (if p.yp = b.taken then false else true))
      else h.tnmtTable
    yp := h.yp.update b
    pct := h.pct.update b p.pct }

/-- The error is the assertion. -/
def update : Except String Hybrid :=
  match h.pending b.instNum with
  | none => .error "Hybrid::update called without a matching predict()"
  | some p => .ok (train { h with pending := Function.update h.pending b.instNum none } b p)

end Hybrid

/-! ## Factory -/

def makeYehPatt (cfg : PredictorConfig) : Except String YehPatt :=
  if !inRange cfg.historyBits 1 20 || !inRange cfg.patternBits 1 20 then
    .error s!"yeh_patt: history_bits={cfg.historyBits} pattern_bits={cfg.patternBits} (each must be in [1, 20])"
  else .ok (.make cfg.historyBits.toNat cfg.patternBits.toNat)

def makePerceptron (cfg : PredictorConfig) : Except String Perceptron :=
  if !inRange cfg.perceptronHistoryBits 1 30 || !inRange cfg.perceptronIndexBits 1 20 then
    .error (s!"perceptron: perceptron_history_bits={cfg.perceptronHistoryBits}" ++
      s!" perceptron_index_bits={cfg.perceptronIndexBits}" ++
      " (history_bits in [1,30], index_bits in [1,20])")
  else .ok (.make cfg.perceptronHistoryBits.toNat cfg.perceptronIndexBits.toNat)

/-- The constructor of the hybrid makes its parts first. -/
def Hybrid.make (cfg : PredictorConfig) : Except String Hybrid := do
  let yp ← makeYehPatt cfg
  let pct ← makePerceptron cfg
  let counterBits := cfg.tournamentCounterBits.toNat
  let selector ← SaturatingCounter.make counterBits (initValueFor cfg.hybridInit counterBits)
  return { yp, pct
           tnmtMask := maskOf cfg.tournamentIndexBits.toNat
           tnmtTable := fun _ => selector
           pending := fun _ => none }

def makeHybrid (cfg : PredictorConfig) : Except String Hybrid :=
  if !inRange cfg.tournamentIndexBits 1 24 || !inRange cfg.tournamentCounterBits 2 8 ||
      !inRange cfg.hybridInit 0 3 then
    .error (s!"hybrid: tournament_index_bits={cfg.tournamentIndexBits}" ++
      s!" tournament_counter_bits={cfg.tournamentCounterBits} hybrid_init={cfg.hybridInit}" ++
      " (index in [1,24], counter in [2,8], init in [0,3])")
  else Hybrid.make cfg

/-- The predictors of the factory. -/
inductive BranchPredictor where
  | alwaysTaken
  | yehPatt (p : YehPatt)
  | perceptron (p : Perceptron)
  | hybrid (h : Hybrid)

def make (cfg : PredictorConfig) : Except String BranchPredictor :=
  if cfg.type = "always_taken" then .ok .alwaysTaken
  else if cfg.type = "yeh_patt" then (makeYehPatt cfg).map .yehPatt
  else if cfg.type = "perceptron" then (makePerceptron cfg).map .perceptron
  else if cfg.type = "hybrid" then (makeHybrid cfg).map .hybrid
  else .error s!"unknown predictor type: '{cfg.type}'"

namespace BranchPredictor

def predict (b : Branch) : BranchPredictor → Except String (Bool × BranchPredictor)
  | alwaysTaken => .ok (true, alwaysTaken)
  | yehPatt p => .ok (p.predict b, yehPatt p)
  | perceptron p => .ok (p.predict b, perceptron p)
  | hybrid h => (h.predict b).map fun r => (r.1, hybrid r.2)

def update (b : Branch) (prediction : Bool) : BranchPredictor → Except String BranchPredictor
  | alwaysTaken => .ok alwaysTaken
  | yehPatt p => .ok (yehPatt (p.update b))
  | perceptron p => .ok (perceptron (p.update b prediction))
  | hybrid h => (h.update b).map hybrid

end BranchPredictor

/-! ## Predictor mode -/

structure Stats where
  records : Nat := 0
  branches : Nat := 0
  correct : Nat := 0
  mispredicted : Nat := 0
  deriving DecidableEq, Repr

def Stats.score (s : Stats) (prediction taken : Bool) : Stats :=
  if prediction = taken then { s with correct := s.correct + 1, branches := s.branches + 1 }
  else { s with mispredicted := s.mispredicted + 1, branches := s.branches + 1 }

/-- The loop of `run_predictor_mode`, over the records that the reader delivers. -/
def runPredictorMode : List Record → BranchPredictor → Stats → Except String (BranchPredictor × Stats)
  | [], pred, s => .ok (pred, s)
  | rec :: rest, pred, s =>
      let s := { s with records := s.records + 1 }
      if rec.isBranch then
        let b : Branch := { ip := rec.ip, taken := rec.branchTaken, instNum := s.records }
        match pred.predict b with
        | .error fault => .error fault
        | .ok (prediction, pred) =>
            match pred.update b prediction with
            | .error fault => .error fault
            | .ok pred => runPredictorMode rest pred (s.score prediction rec.branchTaken)
      else runPredictorMode rest pred s

end Predictor
