import MulticoreSim.Library.Renaming
import Mathlib.Data.List.Induction
import Mathlib.Data.List.Nodup
import Mathlib.Logic.Function.Basic

/-! # Execution out of order

Instructions read registers and a memory. In program order each one reads what those
before it left. Out of order each one reads the results that its operands name, and
the memory as it is when the instruction finishes. Where operands name last writers
that have finished, and accesses to the memory finish in an order in which no write
passes another access, both compute the same.
-/

namespace Dataflow

open Renaming

/-- What instructions `ι` do, with operands `κ` in registers `ρ`, values `ν` and a memory `μ`. -/
structure Meaning (ι ρ κ ν μ : Type) where
  dest : ι → Option ρ
  source : ι → κ → Option ρ
  result : ι → (κ → Option ν) → μ → ν
  store : ι → (κ → Option ν) → μ → μ
  /-- Looks at the memory. -/
  touches : ι → Bool
  /-- Changes the memory. -/
  writes : ι → Bool
  blind : ∀ i args m m', touches i = false → result i args m = result i args m'
  quiet : ∀ i args m, writes i = false → store i args m = m
  writer_touches : ∀ i, writes i = true → touches i = true

structure State (ρ ν μ : Type) where
  regs : ρ → ν
  mem : μ

/-- Results by tag, and the memory. -/
structure Flow (ν μ : Type) where
  file : Nat → ν
  mem : μ

/-- The instructions below a tag. -/
def before {ι : Type} (program : List (ι × Nat)) (t : Nat) : List ι :=
  (program.filter (·.2 < t)).map (·.1)

section

variable {ι : Type} {program : List (ι × Nat)} {i : ι} {t u : Nat}

theorem before_later (later : t ≤ u) : before (program ++ [(i, u)]) t = before program t := by
  simp [before, List.filter_append, Nat.not_lt_of_le later]

theorem before_all (below : ∀ d ∈ program, d.2 < t) : before program t = program.map (·.1) := by
  have all : program.filter (·.2 < t) = program :=
    List.filter_eq_self.mpr fun d mem => by simpa using below d mem
  rw [before, all]

theorem before_past (past : u < t) :
    before (program ++ [(i, u)]) t = before program t ++ [i] := by
  simp [before, List.filter_append, past]

/-- Below a tag stands what is below a smaller one, then the rest. -/
theorem before_split (increasing : program.Pairwise (·.2 < ·.2)) (le : t ≤ u) :
    before program u = before program t ++ (program.filter fun d => t ≤ d.2 ∧ d.2 < u).map (·.1) := by
  induction program with
  | nil => rfl
  | cons d rest ih =>
      rw [List.pairwise_cons] at increasing
      have tail := ih increasing.2
      by_cases low : d.2 < t
      · have high : d.2 < u := Nat.lt_of_lt_of_le low le
        simpa [before, low, high, Nat.not_le_of_lt low] using tail
      · -- Everything behind `d` is at the smaller tag or beyond it.
        have none : rest.filter (·.2 < t) = [] := by
          refine List.filter_eq_nil_iff.mpr fun e mem => ?_
          have after := increasing.1 e mem
          simp only [decide_eq_true_eq]
          omega
        have tail : before rest u =
            (rest.filter fun d => t ≤ d.2 ∧ d.2 < u).map (·.1) := by
          rw [tail, before, none]
          rfl
        have high : t ≤ d.2 := Nat.le_of_not_lt low
        have start : before (d :: rest) t = [] := by
          rw [before, List.filter_cons_of_neg (by simpa using high), none]
          rfl
        rw [start, List.nil_append]
        by_cases here : d.2 < u
        · simpa [before, here, high] using tail
        · simpa [before, here, high] using tail

/-- Below an instruction's own tag stands what comes before it. -/
theorem before_front {front back : List (ι × Nat)} {d : ι × Nat}
    (increasing : (front ++ d :: back).Pairwise (·.2 < ·.2)) :
    before (front ++ d :: back) d.2 = front.map (·.1) := by
  rw [List.pairwise_append, List.pairwise_cons] at increasing
  have below : front.filter (·.2 < d.2) = front := List.filter_eq_self.mpr fun e mem => by
    simpa using increasing.2.2 e mem d List.mem_cons_self
  have above : back.filter (·.2 < d.2) = [] := List.filter_eq_nil_iff.mpr fun e mem => by
    simpa using Nat.le_of_lt (increasing.2.1.1 e mem)
  rw [before, List.filter_append, below, List.filter_cons_of_neg (by simp), above, List.append_nil]

theorem before_here (increasing : program.Pairwise (·.2 < ·.2)) (mem : (i, t) ∈ program) :
    before program (t + 1) = before program t ++ [i] := by
  rw [before_split increasing (Nat.le_succ t)]
  obtain ⟨front, back, rfl⟩ := List.append_of_mem mem
  rw [List.pairwise_append, List.pairwise_cons] at increasing
  obtain ⟨-, ⟨after, -⟩, across⟩ := increasing
  have left : front.filter (fun d => decide (t ≤ d.2 ∧ d.2 < t + 1)) = [] := by
    refine List.filter_eq_nil_iff.mpr fun d mem => ?_
    have below := across d mem (i, t) List.mem_cons_self
    simp only [decide_eq_true_eq]
    omega
  have right : back.filter (fun d => decide (t ≤ d.2 ∧ d.2 < t + 1)) = [] := by
    refine List.filter_eq_nil_iff.mpr fun d mem => ?_
    have above := after d mem
    simp only [decide_eq_true_eq]
    omega
  rw [List.filter_append, left, List.filter_cons_of_pos (by simp), right]
  rfl

end

namespace Meaning

variable {ι ρ κ ν μ : Type} [DecidableEq ρ] (M : Meaning ι ρ κ ν μ)

/-! ## In order -/

def reads (regs : ρ → ν) (i : ι) : κ → Option ν := fun k => (M.source i k).map regs

def value (s : State ρ ν μ) (i : ι) : ν := M.result i (M.reads s.regs i) s.mem

/-- A result goes to its register. -/
def commit (regs : ρ → ν) (i : ι) (v : ν) : ρ → ν :=
  match M.dest i with
  | none => regs
  | some r => Function.update regs r v

def exec (s : State ρ ν μ) (i : ι) : State ρ ν μ where
  regs := M.commit s.regs i (M.value s i)
  mem := M.store i (M.reads s.regs i) s.mem

def sequential (start : State ρ ν μ) (is : List ι) : State ρ ν μ := is.foldl M.exec start

variable {M} {start : State ρ ν μ} {program : List (ι × Nat)} {i : ι} {t : Nat}

@[simp] theorem sequential_snoc (is : List ι) (i : ι) :
    M.sequential start (is ++ [i]) = M.exec (M.sequential start is) i := by
  simp [sequential]

theorem commit_self {regs : ρ → ν} {r : ρ} {v : ν} (here : M.dest i = some r) :
    M.commit regs i v r = v := by
  simp [commit, here]

theorem commit_other {regs : ρ → ν} {r : ρ} {v : ν} (other : M.dest i ≠ some r) :
    M.commit regs i v r = regs r := by
  unfold commit
  cases dest : M.dest i with
  | none => rfl
  | some r' =>
      apply Function.update_of_ne
      intro same
      exact other (dest.trans (congrArg some same.symm))

/-- A register holds the value of the last instruction that wrote it. -/
theorem regs_before (increasing : program.Pairwise (·.2 < ·.2)) (t : Nat) (r : ρ) :
    (M.sequential start (before program t)).regs r =
      match writerBelow M.dest program t r with
      | none => start.regs r
      | some w => M.value (M.sequential start (before program w.2)) w.1 := by
  induction program using List.reverseRecOn with
  | nil => rfl
  | append_singleton program last ih =>
      obtain ⟨i, u⟩ := last
      rw [List.pairwise_append] at increasing
      obtain ⟨increasing, -, across⟩ := increasing
      have below : ∀ d ∈ program, d.2 < u := fun d mem => across d mem (i, u) (List.mem_singleton_self _)
      have earlier : ∀ d ∈ program, before (program ++ [(i, u)]) d.2 = before program d.2 := fun d mem =>
        before_later (Nat.le_of_lt (below d mem))
      have ih := ih increasing
      by_cases past : u < t
      · rw [before_past past, sequential_snoc]
        by_cases here : M.dest i = some r
        · have last : writerBelow M.dest (program ++ [(i, u)]) t r = some (i, u) := by
            simp [writerBelow, List.filter_append, past, here]
          have all : before program t = before program u := by
            rw [before_all below, before_all fun d mem => Nat.lt_trans (below d mem) past]
          rw [last]
          simp only [exec, commit_self here, before_later (Nat.le_refl u), all]
        · rw [writerBelow_other here]
          simp only [exec, commit_other here, ih]
          split
          · rfl
          · next w found => rw [earlier w (writerBelow_mem found).1]
      · have later : t ≤ u := Nat.le_of_not_lt past
        rw [before_later later, writerBelow_later later, ih]
        split
        · rfl
        · next w found => rw [earlier w (writerBelow_mem found).1]

/-- Only writers change the memory. -/
theorem mem_quiet {is : List ι} {s : State ρ ν μ} (quiet : ∀ i ∈ is, M.writes i = false) :
    (M.sequential s is).mem = s.mem := by
  induction is generalizing s with
  | nil => rfl
  | cons i rest ih =>
      have tail := ih (s := M.exec s i) fun j mem => quiet j (List.mem_cons_of_mem _ mem)
      exact tail.trans (M.quiet i _ _ (quiet i List.mem_cons_self))

/-- Without writers between two tags the memory is the same at both. -/
theorem mem_between (increasing : program.Pairwise (·.2 < ·.2)) {u : Nat} (le : t ≤ u)
    (quiet : ∀ d ∈ program, t ≤ d.2 → d.2 < u → M.writes d.1 = false) :
    (M.sequential start (before program u)).mem = (M.sequential start (before program t)).mem := by
  rw [before_split increasing le, sequential, List.foldl_append]
  apply mem_quiet
  intro i listed
  obtain ⟨d, kept, rfl⟩ := List.mem_map.mp listed
  obtain ⟨mem, between⟩ := List.mem_filter.mp kept
  have between : t ≤ d.2 ∧ d.2 < u := by simpa using between
  exact quiet d mem between.1 between.2

/-! ## Out of order -/

variable (M)

/-- An instruction finishes: its operands name results. -/
def finish (f : Flow ν μ) (i : ι) (t : Nat) (operands : κ → Option Nat) : Flow ν μ :=
  let args := fun k => (operands k).map f.file
  { file := Function.update f.file t (M.result i args f.mem), mem := M.store i args f.mem }

/-- The operands of an instruction name the last writers of its sources, which have
    finished, or the home of a register that nothing wrote. -/
structure Names (home : ρ → Nat) (program : List (ι × Nat)) (waits : Nat → Prop) (i : ι) (t : Nat)
    (operands : κ → Option Nat) : Prop where
  absent : ∀ k, M.source i k = none → operands k = none
  unwritten : ∀ k r, M.source i k = some r → writerBelow M.dest program t r = none →
    operands k = some (home r)
  written : ∀ k r w, M.source i k = some r → writerBelow M.dest program t r = some w →
    operands k = some w.2 ∧ ¬waits w.2

/-- The writers that have finished are those below the tag. -/
def Settled (program : List (ι × Nat)) (waits : Nat → Prop) (t : Nat) : Prop :=
  ∀ d ∈ program, M.writes d.1 = true → (d.2 < t ↔ ¬waits d.2)

/-- What has finished has the results of program order. -/
structure Agrees (home : ρ → Nat) (start : State ρ ν μ) (program : List (ι × Nat)) (waits : Nat → Prop)
    (f : Flow ν μ) : Prop where
  increasing : program.Pairwise (·.2 < ·.2)
  fresh : ∀ d ∈ program, ∀ r, home r ≠ d.2
  homes : ∀ r, f.file (home r) = start.regs r
  results : ∀ d ∈ program, ¬waits d.2 →
    f.file d.2 = M.value (M.sequential start (before program d.2)) d.1
  ordered : ∀ d ∈ program, M.writes d.1 = true → ¬waits d.2 →
    ∀ o ∈ program, o.2 < d.2 → M.touches o.1 = true → ¬waits o.2
  memory : ∀ t, M.Settled program waits t → f.mem = (M.sequential start (before program t)).mem

variable {M} {home : ρ → Nat} {waits waits' : Nat → Prop} {f : Flow ν μ}

theorem Agrees.empty (home : ρ → Nat) (start : State ρ ν μ) (waits : Nat → Prop)
    (homes : ∀ r, f.file (home r) = start.regs r) (mem : f.mem = start.mem) :
    M.Agrees home start [] waits f :=
  ⟨.nil, by simp, homes, by simp, by simp, fun _ _ => mem⟩

theorem Agrees.tag_unique (agrees : M.Agrees home start program waits f) {d d' : ι × Nat}
    (mem : d ∈ program) (mem' : d' ∈ program) (same : d.2 = d'.2) : d = d' := by
  have nodup : (program.map (·.2)).Nodup :=
    List.pairwise_map.mpr (agrees.increasing.imp fun lt => Nat.ne_of_lt lt)
  exact List.inj_on_of_nodup_map nodup mem mem' same

/-- A new instruction at the end waits. -/
theorem Agrees.dispatch (agrees : M.Agrees home start program waits f) (below : ∀ d ∈ program, d.2 < t)
    (fresh : ∀ r, home r ≠ t) (waiting : ∀ x, waits' x ↔ waits x ∨ x = t) :
    M.Agrees home start (program ++ [(i, t)]) waits' f := by
  have old : ∀ d ∈ program, (waits' d.2 ↔ waits d.2) := fun d mem => by
    simp [waiting, Nat.ne_of_lt (below d mem)]
  have new : waits' t := (waiting t).mpr (.inr rfl)
  have member : ∀ d ∈ program ++ [(i, t)], ¬waits' d.2 → d ∈ program := by
    intro d mem done
    refine (List.mem_append.mp mem).resolve_right fun last => ?_
    rw [List.mem_singleton.mp last] at done
    exact done new
  refine ⟨?_, fun d mem r => ?_, agrees.homes, fun d mem done => ?_, fun d mem writes done o mem' less => ?_,
    fun u settled => ?_⟩
  · refine List.pairwise_append.mpr ⟨agrees.increasing, List.pairwise_singleton .., fun d mem e last => ?_⟩
    rw [List.mem_singleton.mp last]
    exact below d mem
  · rcases List.mem_append.mp mem with mem | last
    · exact agrees.fresh d mem r
    · rw [List.mem_singleton.mp last]
      exact fresh r
  · have mem := member d mem done
    rw [before_later (Nat.le_of_lt (below d mem))]
    exact agrees.results d mem (mt (old d mem).mpr done)
  · have inside := member d mem done
    have inside' : o ∈ program := by
      refine (List.mem_append.mp mem').resolve_right fun last => ?_
      rw [List.mem_singleton.mp last] at less
      exact Nat.lt_asymm less (below d inside)
    intro touches
    rw [old o inside']
    exact agrees.ordered d inside writes (mt (old d inside).mpr done) o inside' less touches
  · have before : M.Settled program waits u := fun d mem writes => by
      rw [← old d mem]
      exact settled d (List.mem_append_left _ mem) writes
    by_cases past : t < u
    · have quiet : M.writes i = false := by
        by_contra writes
        exact (settled (i, t) (List.mem_append_right _ (List.mem_singleton_self _))
          (by simpa using writes)).mp past new
      rw [before_past past, sequential_snoc, agrees.memory u before]
      exact (M.quiet i _ _ quiet).symm
    · rw [before_later (Nat.le_of_not_lt past)]
      exact agrees.memory u before

/-- Operands that name results give what the sources hold in program order. -/
theorem Agrees.operands (agrees : M.Agrees home start program waits f) {operands : κ → Option Nat}
    (names : M.Names home program waits i t operands) :
    (fun k => (operands k).map f.file) = M.reads (M.sequential start (before program t)).regs i := by
  funext k
  unfold reads
  cases source : M.source i k with
  | none => rw [names.absent k source]; rfl
  | some r =>
      rw [Option.map_some, regs_before agrees.increasing]
      cases last : writerBelow M.dest program t r with
      | none => rw [names.unwritten k r source last, Option.map_some, agrees.homes]
      | some w =>
          obtain ⟨named, done⟩ := names.written k r w source last
          rw [named, Option.map_some, agrees.results w (writerBelow_mem last).1 done]

/-- Where an access finishes, the finished writers are those before it. -/
theorem Agrees.settled (agrees : M.Agrees home start program waits f) (mem : (i, t) ∈ program)
    (waiting : waits t) (touches : M.touches i = true)
    (clear : ∀ o ∈ program, o.2 < t → M.writes o.1 = true → ¬waits o.2) :
    M.Settled program waits t := by
  refine fun d mem' writes => ⟨fun less => clear d mem' less writes, fun done => ?_⟩
  by_contra beyond
  have other : d.2 ≠ t := by
    rintro rfl
    exact done waiting
  exact agrees.ordered d mem' writes done (i, t) mem (by change t < d.2; omega) touches waiting

/-- An instruction finishes whose operands name finished writers, before which every write, or
    for a write every access, has finished. -/
theorem Agrees.finish (agrees : M.Agrees home start program waits f) (mem : (i, t) ∈ program)
    (waiting : waits t) {operands : κ → Option Nat} (names : M.Names home program waits i t operands)
    (afterWrites : M.touches i = true → ∀ o ∈ program, o.2 < t → M.writes o.1 = true → ¬waits o.2)
    (afterAll : M.writes i = true → ∀ o ∈ program, o.2 < t → M.touches o.1 = true → ¬waits o.2)
    (left : ∀ x, waits' x ↔ waits x ∧ x ≠ t) :
    M.Agrees home start program waits' (M.finish f i t operands) := by
  have args := agrees.operands names
  have settled := fun touches => agrees.settled mem waiting touches (afterWrites touches)
  have value : M.result i (fun k => (operands k).map f.file) f.mem =
      M.value (M.sequential start (before program t)) i := by
    rw [args, value]
    by_cases touches : M.touches i = true
    · rw [agrees.memory t (settled touches)]
    · exact M.blind i _ _ _ (by simpa using touches)
  have others : ∀ d ∈ program, ¬waits' d.2 → d.2 = t ∨ ¬waits d.2 := fun d _ done => by
    rw [left] at done
    tauto
  refine ⟨agrees.increasing, agrees.fresh, fun r => ?_, fun d mem' done => ?_,
    fun d mem' writes done o mem'' less touches => ?_, fun u settled' => ?_⟩
  · have apart : home r ≠ t := agrees.fresh (i, t) mem r
    exact (Function.update_of_ne apart ..).trans (agrees.homes r)
  · by_cases here : d.2 = t
    · have same : d = (i, t) := agrees.tag_unique mem' mem here
      subst same
      exact (Function.update_self ..).trans value
    · have old := (others d mem' done).resolve_left here
      exact (Function.update_of_ne here ..).trans (agrees.results d mem' old)
  · have gone : ¬waits o.2 := by
      rcases others d mem' done with here | old
      · have same : d = (i, t) := agrees.tag_unique mem' mem here
        subst same
        exact afterAll writes o mem'' less touches
      · exact agrees.ordered d mem' writes old o mem'' less touches
    rw [left]
    exact fun still => gone still.1
  · have member := settled' (i, t) mem
    by_cases writes : M.writes i = true
    · -- The tag lies behind the write, and no other writer between them has finished.
      have past : t < u := (member writes).mpr (by simp [left])
      have quiet : ∀ d ∈ program, t + 1 ≤ d.2 → d.2 < u → M.writes d.1 = false := by
        intro d mem' after below
        by_contra writes'
        have writes' : M.writes d.1 = true := by simpa using writes'
        have old := (others d mem' ((settled' d mem' writes').mp below)).resolve_left (by omega)
        exact agrees.ordered d mem' writes' old (i, t) mem after (M.writer_touches i writes) waiting
      rw [mem_between agrees.increasing past quiet, before_here agrees.increasing mem, sequential_snoc]
      change M.store i (fun k => (operands k).map f.file) f.mem = _
      rw [args, agrees.memory t (settled (M.writer_touches i writes))]
      rfl
    · have writes : M.writes i = false := by simpa using writes
      change M.store i (fun k => (operands k).map f.file) f.mem = _
      rw [M.quiet i _ _ writes]
      refine agrees.memory u fun d mem' writer => (settled' d mem' writer).trans ?_
      have other : d.2 ≠ t := by
        intro here
        have same : d = (i, t) := agrees.tag_unique mem' mem here
        subst same
        rw [writes] at writer
        cases writer
      simp [left, other]

/-- Instructions that commit in program order, once they have finished, leave the registers
    of program order. -/
theorem Agrees.commit {front back : List (ι × Nat)}
    (agrees : M.Agrees home start (front ++ (i, t) :: back) waits f) (done : ¬waits t) :
    M.commit (M.sequential start (front.map (·.1))).regs i (f.file t) =
      (M.sequential start (front.map (·.1) ++ [i])).regs := by
  have here : (i, t) ∈ front ++ (i, t) :: back := List.mem_append_right _ List.mem_cons_self
  have front_all := before_front agrees.increasing
  rw [agrees.results (i, t) here done, front_all, sequential_snoc]
  rfl

/-- Once everything has finished the memory is that of program order. -/
theorem Agrees.drained (agrees : M.Agrees home start program waits f) (beyond : ∀ d ∈ program, d.2 < t)
    (done : ∀ d ∈ program, ¬waits d.2) : f.mem = (M.sequential start (program.map (·.1))).mem := by
  rw [← before_all beyond]
  exact agrees.memory t fun d mem _ => iff_of_true (beyond d mem) (done d mem)

end Meaning

end Dataflow
