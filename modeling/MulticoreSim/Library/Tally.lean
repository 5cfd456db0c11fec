import Mathlib.Data.Finsupp.Basic
import Mathlib.Data.Finset.Max
import Mathlib.Data.Prod.Lex

/-! # Bounded tallies

Counts of at most `n` elements. Where another one is counted, the one with the fewest
counts is dropped with all of them; of several the smallest.
-/

namespace Tally

variable {α : Type} [LinearOrder α] {t : α →₀ ℕ} {n : ℕ} {x y : α}

/-- `x` has more counts than `y`, or as many and is larger. -/
def Outranks (t : α →₀ ℕ) (x y : α) : Prop := t y < t x ∨ t x = t y ∧ y < x

def Most (t : α →₀ ℕ) (x : α) : Prop := x ∈ t.support ∧ ∀ y ∈ t.support, y ≠ x → Outranks t x y

def Least (t : α →₀ ℕ) (x : α) : Prop := x ∈ t.support ∧ ∀ y ∈ t.support, y ≠ x → Outranks t y x

theorem Outranks.asymm (first : Outranks t x y) : ¬Outranks t y x := by
  intro second
  cases first with
  | inl more =>
      cases second with
      | inl fewer => omega
      | inr equal => omega
  | inr equal =>
      cases second with
      | inl fewer => omega
      | inr other => exact equal.2.asymm other.2

theorem Most.unique (first : Most t x) (second : Most t y) : x = y := by
  by_contra ne
  exact (first.2 y second.1 (Ne.symm ne)).asymm (second.2 x first.1 ne)

theorem Least.unique (first : Least t x) (second : Least t y) : x = y := by
  by_contra ne
  exact (first.2 y second.1 (Ne.symm ne)).asymm (second.2 x first.1 ne)

theorem exists_least (some : t.support.Nonempty) : ∃ x, Least t x := by
  obtain ⟨x, mem, least⟩ := t.support.exists_min_image (fun x => toLex (t x, x)) some
  refine ⟨x, mem, ?_⟩
  intro y memY ne
  cases Prod.Lex.toLex_le_toLex.mp (least y memY) with
  | inl fewer => exact .inl fewer
  | inr equal => exact .inr ⟨equal.1.symm, lt_of_le_of_ne equal.2 (Ne.symm ne)⟩

/-! ## Counting -/

open Classical in
noncomputable def evict (t : α →₀ ℕ) : α →₀ ℕ := t.filter fun x => ¬Least t x

/-- One more for `x`. -/
noncomputable def count (n : ℕ) (t : α →₀ ℕ) (x : α) : α →₀ ℕ :=
  (if x ∈ t.support ∨ t.support.card < n then t else evict t) + Finsupp.single x 1

theorem evict_apply (least : Least t x) (y : α) : evict t y = if y = x then 0 else t y := by
  unfold evict
  rw [Finsupp.filter_apply]
  by_cases eq : y = x
  · subst eq
    simp [least]
  · have stays : ¬Least t y := fun other => eq (other.unique least)
    simp [stays, eq]

theorem support_evict (least : Least t x) : (evict t).support = t.support.erase x := by
  ext y
  rw [Finsupp.mem_support_iff, evict_apply least, Finset.mem_erase, Finsupp.mem_support_iff]
  by_cases eq : y = x
  · simp [eq]
  · simp [eq]

theorem support_add_single (t : α →₀ ℕ) (x : α) : (t + Finsupp.single x 1).support = insert x t.support := by
  ext y
  rw [Finsupp.mem_support_iff, Finsupp.add_apply, Finsupp.single_apply, Finset.mem_insert,
    Finsupp.mem_support_iff]
  by_cases eq : y = x
  · simp [eq]
  · simp [eq, Ne.symm eq]

theorem mem_support_count (n : ℕ) (t : α →₀ ℕ) (x : α) : x ∈ (count n t x).support := by
  unfold count
  rw [support_add_single]
  exact Finset.mem_insert_self x _

theorem card_support_count (room : 0 < n) (le : t.support.card ≤ n) (x : α) :
    (count n t x).support.card ≤ n := by
  unfold count
  rw [support_add_single]
  by_cases mem : x ∈ t.support
  · rw [if_pos (.inl mem), Finset.insert_eq_of_mem mem]
    exact le
  · apply (Finset.card_insert_le x _).trans
    by_cases space : t.support.card < n
    · rw [if_pos (.inr space)]
      exact space
    · rw [if_neg (by simp only [mem, space, or_self, not_false_eq_true])]
      have some : t.support.Nonempty := Finset.card_pos.mp (by omega)
      obtain ⟨v, least⟩ := exists_least some
      rw [support_evict least, Finset.card_erase_of_mem least.1]
      omega

end Tally
