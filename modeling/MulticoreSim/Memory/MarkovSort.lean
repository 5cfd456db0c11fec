import Mathlib.Data.List.Nodup
import MulticoreSim.Memory.Prefetch

/-! # The order of a Markov row

`markov_row_sort` puts the best entry from its iterator on before the iterator, and
then steps over the entry it stood at: that one is not compared with what is left.
-/

namespace Memory

namespace Markov

variable {x y z : MarkovEntry} {row rest : List MarkovEntry}

/-! ## The order of entries -/

theorem before_iff : before x y = true ↔
    y.numAccess < x.numAccess ∨ x.numAccess = y.numAccess ∧ y.destinationBAddr < x.destinationBAddr := by
  simp [before]

theorem before_trans (first : before x y = true) (second : before y z = true) : before x z = true := by
  rw [before_iff] at first second ⊢
  omega

theorem before_asymm (first : before x y = true) : ¬before y x = true := by
  rw [before_iff] at first ⊢
  omega

theorem before_of_ne (ne : x ≠ y) (not : ¬before y x = true) : before x y = true := by
  rw [before_iff] at not ⊢
  have fields : x.numAccess = y.numAccess → x.destinationBAddr ≠ y.destinationBAddr := by
    intro count dest
    cases x
    cases y
    exact ne (congrArg₂ MarkovEntry.mk dest count)
  omega

/-- What does not stand before the loser of a comparison does not stand before its winner. -/
theorem not_before_trans (behind : ¬before x y = true) (wins : ¬before y z = true) : ¬before x z = true := by
  intro ahead
  by_cases same : x = y
  · exact wins (same ▸ ahead)
  · exact wins (before_trans (before_of_ne (Ne.symm same) behind) ahead)

/-! ## Scans of a row -/

section

variable {beats : MarkovEntry → MarkovEntry → Bool}

theorem scan_mem (x : MarkovEntry) (rest : List MarkovEntry) :
    rest.foldl (fun found y => if beats y found then y else found) x ∈ x :: rest := by
  induction rest generalizing x with
  | nil => exact List.mem_cons_self
  | cons y rest ih =>
      rw [List.foldl_cons]
      split
      · exact List.mem_cons_of_mem x (ih y)
      · cases List.mem_cons.mp (ih x) with
        | inl same =>
            rw [same]
            exact List.mem_cons_self
        | inr mem => exact List.mem_cons_of_mem x (List.mem_cons_of_mem y mem)

/-- A scan that goes over to whatever beats what it has found finds something unbeaten. -/
theorem scan_unbeaten (asymm : ∀ x y, beats x y = true → ¬beats y x = true)
    (trans : ∀ x y z, ¬beats x y = true → ¬beats y z = true → ¬beats x z = true)
    (x : MarkovEntry) (rest : List MarkovEntry) : ∀ y ∈ x :: rest,
      ¬beats y (rest.foldl (fun found y => if beats y found then y else found) x) = true := by
  induction rest generalizing x with
  | nil =>
      intro y mem beaten
      rw [List.mem_singleton.mp mem] at beaten
      exact asymm x x beaten beaten
  | cons z rest ih =>
      intro y mem
      rw [List.foldl_cons]
      simp only [List.mem_cons] at mem
      split
      · next ahead =>
          cases mem with
          | inl same =>
              subst same
              exact trans y z _ (asymm z y ahead) (ih z z List.mem_cons_self)
          | inr mem => exact ih z y (List.mem_cons.mpr mem)
      · next behind =>
          rcases mem with same | same | mem
          · exact same ▸ ih x x List.mem_cons_self
          · subst same
            exact trans y x _ behind (ih x x List.mem_cons_self)
          · exact ih x y (List.mem_cons_of_mem x mem)

end

theorem best_mem (x : MarkovEntry) (rest : List MarkovEntry) : best x rest ∈ x :: rest :=
  scan_mem x rest

theorem not_before_best (x : MarkovEntry) (rest : List MarkovEntry) :
    ∀ y ∈ x :: rest, ¬before y (best x rest) = true :=
  @scan_unbeaten before (fun _ _ => before_asymm) (fun _ _ _ => not_before_trans) x rest

/-- The best entry stands before all others. -/
theorem best_before (mem : y ∈ x :: rest) (other : y ≠ best x rest) : before (best x rest) y = true :=
  before_of_ne (Ne.symm other) (not_before_best x rest y mem)

theorem lfu_cons (x : MarkovEntry) (rest : List MarkovEntry) :
    lfu (x :: rest) = some (rest.foldl (fun worst y => if before worst y then y else worst) x) := by
  simp only [lfu, before, gt_iff_lt, eq_comm]

/-- All others stand before the victim. -/
theorem lfu_behind {v : MarkovEntry} (found : lfu row = some v) :
    v ∈ row ∧ ∀ y ∈ row, y ≠ v → before y v = true := by
  cases row with
  | nil => cases found
  | cons x rest =>
      rw [lfu_cons, Option.some_inj] at found
      subst found
      constructor
      · exact @scan_mem (fun y worst => before worst y) x rest
      · intro y mem other
        apply before_of_ne other
        exact @scan_unbeaten (fun y worst => before worst y) (fun _ _ => before_asymm)
          (fun _ _ _ first second => not_before_trans second first) x rest y mem

/-! ## The sort -/

theorem markovRowSort_cons (x : MarkovEntry) (rest : List MarkovEntry) :
    markovRowSort (x :: rest) =
      if best x rest = x then x :: markovRowSort rest
      else best x rest :: x :: markovRowSort (rest.erase (best x rest)) := by
  rw [markovRowSort]

theorem best_mem_rest (other : best x rest ≠ x) : best x rest ∈ rest :=
  (List.mem_cons.mp (best_mem x rest)).resolve_left other

theorem markovRowSort_perm (row : List MarkovEntry) : (markovRowSort row).Perm row := by
  induction row using markovRowSort.induct with
  | case1 =>
      rw [markovRowSort]
  | case2 x rest first ih =>
      rw [markovRowSort_cons, if_pos first]
      exact ih.cons x
  | case3 x rest other ih =>
      rw [markovRowSort_cons, if_neg other]
      have moved := List.perm_cons_erase (best_mem_rest other)
      calc
        (best x rest :: x :: markovRowSort (rest.erase (best x rest))).Perm
            (best x rest :: x :: rest.erase (best x rest)) := (ih.cons x).cons _
        List.Perm _ (x :: best x rest :: rest.erase (best x rest)) := List.Perm.swap x _ _
        List.Perm _ (x :: rest) := moved.symm.cons x

/-! ## When it sorts -/

/-- `y` stands behind `x`, and belongs before it and behind all that stand in front of it. -/
structure Between (row : List MarkovEntry) (x y : MarkovEntry) : Prop where
  behind : [x, y].Sublist row
  before : before y x = true
  front : ∀ w, [w, x].Sublist row → Markov.before w y = true

/-- No entry has two such behind it. -/
def Sortable (row : List MarkovEntry) : Prop :=
  ∀ x y z, Between row x y → Between row x z → y = z

variable {a b : MarkovEntry}

theorem behind_cons : [a, b].Sublist (x :: rest) ↔ [a, b].Sublist rest ∨ a = x ∧ b ∈ rest := by
  rw [List.cons_sublist_cons', List.singleton_sublist]

theorem behind_mem (behind : [a, b].Sublist rest) : b ∈ rest :=
  behind.subset (by simp)

theorem behind_erase (nodup : rest.Nodup) {m : MarkovEntry} :
    [a, b].Sublist (rest.erase m) ↔ [a, b].Sublist rest ∧ a ≠ m ∧ b ≠ m := by
  constructor
  · intro behind
    have stays : ∀ c ∈ [a, b], c ≠ m := fun c mem =>
      (nodup.mem_erase_iff.mp (behind.subset mem)).1
    exact ⟨behind.trans List.erase_sublist, stays a (by simp), stays b (by simp)⟩
  · intro ⟨behind, first, second⟩
    rw [nodup.erase_eq_filter]
    have kept := behind.filter (· != m)
    simpa [first, second] using kept

/-- An entry that stands where it belongs concerns no other. -/
theorem between_cons (first : ∀ y ∈ rest, before x y = true) :
    Between (x :: rest) a b ↔ Between rest a b := by
  constructor
  · intro between
    cases behind_cons.mp between.behind with
    | inl behind =>
        exact ⟨behind, between.before, fun w ahead => between.front w (behind_cons.mpr (.inl ahead))⟩
    | inr head =>
        obtain ⟨rfl, mem⟩ := head
        exact absurd between.before (before_asymm (first b mem))
  · intro between
    constructor
    · exact behind_cons.mpr (.inl between.behind)
    · exact between.before
    · intro w ahead
      cases behind_cons.mp ahead with
      | inl ahead => exact between.front w ahead
      | inr head =>
          rw [head.1]
          exact first b (behind_mem between.behind)

/-- An entry that only the best one passes is passed by that one, and by no other. -/
theorem between_erase (nodup : (x :: rest).Nodup) (other : best x rest ≠ x)
    (second : ∀ y ∈ rest.erase (best x rest), before x y = true) :
    Between (x :: rest) a b ↔ a = x ∧ b = best x rest ∨ Between (rest.erase (best x rest)) a b := by
  obtain ⟨fresh, unique⟩ := List.nodup_cons.mp nodup
  have best_first : before (best x rest) x = true :=
    best_before List.mem_cons_self (Ne.symm other)
  constructor
  · intro between
    cases behind_cons.mp between.behind with
    | inr head =>
        obtain ⟨rfl, mem⟩ := head
        apply Or.inl
        constructor
        · rfl
        · by_contra rival
          exact before_asymm (second b (unique.mem_erase_iff.mpr ⟨rival, mem⟩)) between.before
    | inl behind =>
        apply Or.inr
        have later : before x b = true :=
          between.front x (behind_cons.mpr (.inr ⟨rfl, behind.subset (by simp)⟩))
        have beaten : b ≠ best x rest := by
          intro same
          exact before_asymm best_first (same ▸ later)
        have loser : a ≠ best x rest := by
          intro same
          have mem : b ∈ x :: rest := List.mem_cons_of_mem x (behind_mem behind)
          exact before_asymm (best_before mem beaten) (same ▸ between.before)
        constructor
        · exact (behind_erase unique).mpr ⟨behind, loser, beaten⟩
        · exact between.before
        · intro w ahead
          exact between.front w (behind_cons.mpr (.inl ((behind_erase unique).mp ahead).1))
  · intro passed
    cases passed with
    | inl passed =>
        obtain ⟨rfl, rfl⟩ := passed
        constructor
        · exact behind_cons.mpr (.inr ⟨rfl, best_mem_rest other⟩)
        · exact best_first
        · intro w ahead
          cases behind_cons.mp ahead with
          | inl ahead => exact absurd (behind_mem ahead) fresh
          | inr head => exact absurd head.2 fresh
    | inr between =>
        obtain ⟨behind, -, beaten⟩ := (behind_erase unique).mp between.behind
        have mem := behind_mem between.behind
        constructor
        · exact behind_cons.mpr (.inl behind)
        · exact between.before
        · intro w ahead
          cases behind_cons.mp ahead with
          | inr head =>
              rw [head.1]
              exact second b mem
          | inl ahead =>
              by_cases top : w = best x rest
              · rw [top]
                exact best_before (List.mem_cons_of_mem x (behind_mem behind)) beaten
              · apply between.front w
                have loser : a ≠ best x rest := ((behind_erase unique).mp between.behind).2.1
                exact (behind_erase unique).mpr ⟨ahead, top, loser⟩

theorem sortable_erase (nodup : (x :: rest).Nodup) (other : best x rest ≠ x)
    (second : ∀ y ∈ rest.erase (best x rest), before x y = true) :
    Sortable (x :: rest) ↔ Sortable (rest.erase (best x rest)) := by
  have passed := @between_erase x rest
  have gone : ∀ b, ¬Between (rest.erase (best x rest)) x b := by
    intro b between
    have mem : x ∈ rest.erase (best x rest) := between.behind.subset (by simp)
    exact (List.nodup_cons.mp nodup).1 (List.mem_of_mem_erase mem)
  constructor
  · intro sortable a b c first last
    exact sortable a b c ((passed nodup other second).mpr (.inr first))
      ((passed nodup other second).mpr (.inr last))
  · intro sortable a b c first last
    cases (passed nodup other second).mp first with
    | inl head =>
        obtain ⟨rfl, rfl⟩ := head
        cases (passed nodup other second).mp last with
        | inl head => exact head.2.symm
        | inr last => exact absurd last (gone c)
    | inr first =>
        cases (passed nodup other second).mp last with
        | inl head =>
            obtain ⟨rfl, -⟩ := head
            exact absurd first (gone b)
        | inr last => exact sortable a b c first last

/-- An entry that two pass keeps one of them behind it. -/
theorem second_of_sortable (nodup : (x :: rest).Nodup) (other : best x rest ≠ x)
    (sortable : Sortable (x :: rest)) : ∀ y ∈ rest.erase (best x rest), before x y = true := by
  intro y mem
  obtain ⟨fresh, unique⟩ := List.nodup_cons.mp nodup
  obtain ⟨rival, inside⟩ := unique.mem_erase_iff.mp mem
  by_contra passes
  have front : ∀ w, ¬[w, x].Sublist (x :: rest) := by
    intro w ahead
    cases behind_cons.mp ahead with
    | inl ahead => exact fresh (behind_mem ahead)
    | inr head => exact fresh head.2
  have between : ∀ b ∈ rest, before b x = true → Between (x :: rest) x b := fun b mem ahead =>
    ⟨behind_cons.mpr (.inr ⟨rfl, mem⟩), ahead, fun w first => absurd first (front w)⟩
  have two := sortable x y (best x rest)
    (between y inside (before_of_ne (ne_of_mem_of_not_mem inside fresh) passes))
    (between _ (best_mem_rest other) (best_before List.mem_cons_self (Ne.symm other)))
  exact rival two

theorem sorted_iff (nodup : row.Nodup) :
    (markovRowSort row).Pairwise (before · · = true) ↔ Sortable row := by
  induction row using markovRowSort.induct with
  | case1 =>
      rw [markovRowSort]
      simp only [List.Pairwise.nil, true_iff]
      intro x y z first
      exact absurd first.behind (by simp)
  | case2 x rest first ih =>
      have head : ∀ y ∈ rest, before x y = true := by
        intro y mem
        have found := best_before (List.mem_cons_of_mem x mem)
        rw [first] at found
        exact found (ne_of_mem_of_not_mem mem (List.nodup_cons.mp nodup).1)
      have same : Sortable (x :: rest) ↔ Sortable rest := by
        unfold Sortable
        simp only [between_cons head]
      rw [markovRowSort_cons, if_pos first, List.pairwise_cons, ih (List.nodup_cons.mp nodup).2, same]
      apply and_iff_right
      intro y mem
      exact head y ((markovRowSort_perm rest).mem_iff.mp mem)
  | case3 x rest other ih =>
      obtain ⟨fresh, unique⟩ := List.nodup_cons.mp nodup
      have sorted (y : MarkovEntry) := (markovRowSort_perm (rest.erase (best x rest))).mem_iff (a := y)
      rw [markovRowSort_cons, if_neg other, List.pairwise_cons, List.pairwise_cons, ih (unique.erase _)]
      constructor
      · intro ⟨_, second, sortable⟩
        exact (sortable_erase nodup other fun y mem => second y ((sorted y).mpr mem)).mpr sortable
      · intro sortable
        have second := second_of_sortable nodup other sortable
        refine ⟨?_, fun y mem => second y ((sorted y).mp mem), (sortable_erase nodup other second).mp sortable⟩
        intro y mem
        apply best_before
        · cases List.mem_cons.mp mem with
          | inl head => exact head ▸ List.mem_cons_self
          | inr mem => exact List.mem_cons_of_mem x (List.mem_of_mem_erase ((sorted y).mp mem))
        · cases List.mem_cons.mp mem with
          | inl head =>
              rw [head]
              exact Ne.symm other
          | inr mem => exact (unique.mem_erase_iff.mp ((sorted y).mp mem)).1

/-- The sort permutes a row, and it sorts it if and only if no entry has two behind it
    that belong before it and behind all that stand in front of it. -/
theorem markov_row_sort_sorts (row : List MarkovEntry)
    (distinct : (row.map (·.destinationBAddr)).Nodup) :
    (markovRowSort row).Perm row ∧
      ((markovRowSort row).Pairwise (before · · = true) ↔ Sortable row) :=
  ⟨markovRowSort_perm row, sorted_iff distinct.of_map⟩

/-- Four successors of a block, the last one the most frequent. -/
theorem four_successors_sorted :
    (markovRowSort [⟨1, 3⟩, ⟨3, 2⟩, ⟨5, 4⟩, ⟨4, 2⟩]).Perm [⟨1, 3⟩, ⟨3, 2⟩, ⟨5, 4⟩, ⟨4, 2⟩] ∧
      ((markovRowSort [⟨1, 3⟩, ⟨3, 2⟩, ⟨5, 4⟩, ⟨4, 2⟩]).Pairwise (before · · = true) ↔
        Sortable [⟨1, 3⟩, ⟨3, 2⟩, ⟨5, 4⟩, ⟨4, 2⟩]) :=
  markov_row_sort_sorts _ (by decide)

/-- The successors 3, 2 and 1, in the order in which a row takes them. -/
theorem third_successor_unsorted :
    addNewEntry (addNewEntry (addNewEntry [] 3) 2) 1 = markovRowSort [⟨1, 1⟩, ⟨3, 1⟩, ⟨2, 1⟩] ∧
      ([⟨1, 1⟩, ⟨3, 1⟩, ⟨2, 1⟩].map MarkovEntry.destinationBAddr).Nodup ∧
      ¬(markovRowSort [⟨1, 1⟩, ⟨3, 1⟩, ⟨2, 1⟩]).Pairwise (before · · = true) :=
  ⟨by decide +kernel, by decide, by decide +kernel⟩

end Markov

end Memory
