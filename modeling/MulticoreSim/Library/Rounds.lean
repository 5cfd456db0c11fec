import Mathlib.Data.List.Sort
import Mathlib.Algebra.BigOperators.Group.Finset.Basic
import Mathlib.Algebra.Order.BigOperators.Group.Finset

/-! # Rounds of a shared counter

A counter that goes up after every so many calls numbers the calls of all callers
together. Each caller's own calls are numbered in turn just when nobody calls twice
in a round.
-/

namespace Rounds

variable {α : Type} [DecidableEq α]

/-- The numbers of one caller's calls. -/
def numbers (each : Nat) (who : α) (callers : List α) : List Nat :=
  (callers.zipIdx.filter fun call => call.1 = who).map fun call => call.2 / each

/-- The callers of one round. -/
def round (each r : Nat) (callers : List α) : List α := (callers.drop (r * each)).take each

variable {each : Nat} {who : α} {callers : List α}

theorem numbers_snoc (each : Nat) (who : α) (callers : List α) (last : α) :
    numbers each who (callers ++ [last]) =
      numbers each who callers ++ if last = who then [callers.length / each] else [] := by
  rw [numbers, List.zipIdx_append, List.filter_append, List.map_append]
  congr 1
  rw [List.zipIdx_singleton, List.filter_singleton]
  by_cases same : last = who <;> simp [same]

theorem length_numbers (each : Nat) (who : α) (callers : List α) :
    (numbers each who callers).length = callers.count who := by
  have firsts := List.zipIdx_map_fst 0 callers
  rw [numbers, List.length_map, ← List.countP_eq_length_filter, List.count]
  conv_rhs => rw [← firsts, List.countP_map]
  apply List.countP_congr
  intro call _
  simp

theorem mem_calls {call : α × Nat} :
    call ∈ callers.zipIdx.filter (fun call => call.1 = who) ↔
      callers[call.2]? = some who ∧ call.1 = who := by
  rw [List.mem_filter, List.mem_zipIdx_iff_getElem?, decide_eq_true_eq]
  constructor
  · rintro ⟨here, rfl⟩
    exact ⟨here, rfl⟩
  · rintro ⟨here, rfl⟩
    exact ⟨here, rfl⟩

theorem mem_numbers {n : Nat} :
    n ∈ numbers each who callers ↔ ∃ i, callers[i]? = some who ∧ i / each = n := by
  rw [numbers, List.mem_map]
  constructor
  · rintro ⟨call, mem, rfl⟩
    exact ⟨call.2, (mem_calls.mp mem).1, rfl⟩
  · rintro ⟨i, here, rfl⟩
    exact ⟨(who, i), mem_calls.mpr ⟨here, rfl⟩, rfl⟩

theorem numbers_sorted (each : Nat) (who : α) (callers : List α) :
    (numbers each who callers).Pairwise (· ≤ ·) := by
  have places : callers.zipIdx.Pairwise fun a b => a.2 < b.2 := by
    have inOrder : (List.range' 0 callers.length).Pairwise (· < ·) := List.pairwise_lt_range'
    rw [← List.zipIdx_map_snd 0 callers] at inOrder
    exact List.pairwise_map.mp inOrder
  apply List.pairwise_map.mpr
  apply (places.sublist List.filter_sublist).imp
  intro a b less
  exact Nat.div_le_div_right (Nat.le_of_lt less)

omit [DecidableEq α] in
theorem getElem?_round (callers : List α) (r : Nat) {i : Nat} (inside : i < each) :
    (round each r callers)[i]? = callers[r * each + i]? := by
  rw [round, List.getElem?_take_of_lt inside, List.getElem?_drop]

/-- No caller has one number twice if and only if no round has one caller twice. -/
theorem numbers_nodup_iff (some : 0 < each) :
    (∀ who, (numbers each who callers).Nodup) ↔ ∀ r, (round each r callers).Nodup := by
  constructor
  · intro nodup r
    rw [List.nodup_iff_getElem?_ne_getElem?]
    intro i j less bound same
    have length : (round each r callers).length ≤ each := List.length_take_le ..
    have first := getElem?_round callers r (show i < each by omega)
    have second := getElem?_round callers r (show j < each by omega)
    obtain ⟨who, here⟩ : ∃ who, (round each r callers)[j]? = Option.some who :=
      ⟨_, List.getElem?_eq_getElem bound⟩
    rw [same] at first
    rw [here] at first second
    have one := List.inj_on_of_nodup_map (nodup who) (mem_calls.mpr ⟨first.symm, rfl⟩ : (who, r * each + i) ∈ _)
      (mem_calls.mpr ⟨second.symm, rfl⟩ : (who, r * each + j) ∈ _)
    have quotient : ∀ k < each, (r * each + k) / each = r := fun k inside => by
      rw [Nat.mul_comm, Nat.mul_add_div some, Nat.div_eq_of_lt inside, Nat.add_zero]
    have equal := one (by dsimp only; rw [quotient i (by omega), quotient j (by omega)])
    have places := congrArg Prod.snd equal
    dsimp only at places
    omega
  · intro nodup who
    have places : (callers.zipIdx.filter fun call => call.1 = who).Nodup := by
      apply List.Nodup.sublist List.filter_sublist
      apply List.Nodup.of_map Prod.snd
      rw [List.zipIdx_map_snd]
      exact List.nodup_range'
    apply places.map_on
    intro a left b right same
    obtain ⟨here, own⟩ := mem_calls.mp left
    obtain ⟨here', own'⟩ := mem_calls.mp right
    have split := Nat.div_add_mod' a.2 each
    have split' := Nat.div_add_mod' b.2 each
    have inside := Nat.mod_lt a.2 some
    have inside' := Nat.mod_lt b.2 some
    rw [← same] at split'
    have first := getElem?_round callers (a.2 / each) inside
    have second := getElem?_round callers (a.2 / each) inside'
    rw [split, here] at first
    rw [split', here'] at second
    obtain ⟨bound, -⟩ := List.getElem?_eq_some_iff.mp first
    have offsets := (List.getElem?_inj bound (nodup (a.2 / each))).mp (first.trans second.symm)
    apply Prod.ext
    · rw [own, own']
    · omega

/-- As many callers as there are calls in a round, with as many calls each. -/
structure Even (each count : Nat) (group : Finset α) (callers : List α) : Prop where
  size : group.card = each
  each : ∀ who ∈ group, callers.count who = count
  others : ∀ who ∈ callers, who ∈ group

theorem Even.length {count : Nat} {group : Finset α} (even : Even each count group callers) :
    callers.length = each * count := by
  have total : ∑ who ∈ group, Multiset.count who (callers : Multiset α) = (callers : Multiset α).card :=
    Multiset.sum_count_eq_card even.others
  rw [Finset.sum_const_nat fun who mem => (Multiset.coe_count who callers).trans (even.each who mem),
    even.size, Multiset.coe_card] at total
  exact total.symm

theorem Even.numbers_of_stranger {count : Nat} {group : Finset α} (even : Even each count group callers)
    (stranger : who ∉ group) : numbers each who callers = [] := by
  apply List.length_eq_zero_iff.mp
  rw [length_numbers]
  exact List.count_eq_zero_of_not_mem fun mem => stranger (even.others who mem)

/-- The calls of each of the group are numbered in turn if and only if nobody calls
    twice in a round. -/
theorem Even.numbers_eq_range {count : Nat} {group : Finset α} (some : 0 < each)
    (even : Even each count group callers) :
    (∀ who ∈ group, numbers each who callers = List.range count) ↔
      ∀ r, (round each r callers).Nodup := by
  rw [← numbers_nodup_iff some]
  constructor
  · intro inTurn who
    by_cases mem : who ∈ group
    · rw [inTurn who mem]
      exact List.nodup_range
    · rw [even.numbers_of_stranger mem]
      exact .nil
  · intro nodup who mem
    have below : numbers each who callers ⊆ List.range count := by
      intro n number
      obtain ⟨i, here, rfl⟩ := mem_numbers.mp number
      obtain ⟨bound, -⟩ := List.getElem?_eq_some_iff.mp here
      rw [even.length] at bound
      exact List.mem_range.mpr (Nat.div_lt_of_lt_mul bound)
    have long : (List.range count).length ≤ (numbers each who callers).length := by
      rw [List.length_range, length_numbers, even.each who mem]
    have perm := (List.subperm_of_subset (nodup who) below).perm_of_length_le long
    exact perm.eq_of_pairwise (fun _ _ _ _ => Nat.le_antisymm) (numbers_sorted each who callers)
      (List.pairwise_lt_range.imp Nat.le_of_lt)

end Rounds
