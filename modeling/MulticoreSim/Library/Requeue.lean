import Mathlib.Data.List.Nodup
import Mathlib.Data.List.Range

/-! # Queues whose head may be put back

Items are numbered as they arrive. The head of the queue is served or put back
behind everything that waits; every overtaking is logged. Then any two items are
served in the order they arrived, or the log says that the later one overtook.
-/

/-- A queue of arrival numbers, what it has served, and who overtook whom. -/
structure Requeue where
  arrived : Nat := 0
  waiting : List Nat := []
  served : List Nat := []
  /-- The first was put back while the second waited. -/
  overtaken : List (Nat × Nat) := []
  deriving DecidableEq, Repr

namespace Requeue

def arrive (q : Requeue) : Requeue :=
  { q with arrived := q.arrived + 1, waiting := q.waiting ++ [q.arrived] }

def serve (q : Requeue) : Requeue :=
  match q.waiting with
  | [] => q
  | k :: rest => { q with waiting := rest, served := q.served ++ [k] }

def putBack (q : Requeue) : Requeue :=
  match q.waiting with
  | [] => q
  | k :: rest =>
      { q with
        waiting := rest ++ [k]
        overtaken := q.overtaken ++ rest.map fun l => (k, l) }

/-- Everything that has arrived, in the order it was or would be served. -/
def order (q : Requeue) : List Nat := q.served ++ q.waiting

/-- The list has the first item somewhere before the second. -/
def Before (k l : Nat) (xs : List Nat) : Prop := ∃ as bs, xs = as ++ bs ∧ k ∈ as ∧ l ∈ bs

theorem Before.mem {k l : Nat} {xs : List Nat} (before : Before k l xs) : k ∈ xs := by
  obtain ⟨as, bs, rfl, first, -⟩ := before
  exact List.mem_append_left _ first

theorem Before.append {k l : Nat} {xs : List Nat} (before : Before k l xs) (ys : List Nat) :
    Before k l (xs ++ ys) := by
  obtain ⟨as, bs, rfl, first, second⟩ := before
  exact ⟨as, bs ++ ys, List.append_assoc .., first, List.mem_append_left _ second⟩

/-- Where a list that has one item before another may be cut. -/
theorem Before.cut {k l : Nat} {xs ys : List Nat} (before : Before k l (xs ++ ys)) :
    Before k l xs ∨ k ∈ xs ∧ l ∈ ys ∨ Before k l ys := by
  obtain ⟨as, bs, eq, first, second⟩ := before
  rcases List.append_eq_append_iff.mp eq with ⟨cs, rfl, rfl⟩ | ⟨cs, rfl, rfl⟩
  · rcases List.mem_append.mp first with left | right
    · exact .inr (.inl ⟨left, List.mem_append_right _ second⟩)
    · exact .inr (.inr ⟨cs, bs, rfl, right, second⟩)
  · rcases List.mem_append.mp second with left | right
    · exact .inl ⟨as, cs, rfl, first, left⟩
    · exact .inr (.inl ⟨List.mem_append_left _ first, right⟩)

/-- Every arrival is in one place, and who is not overtaken keeps its place. -/
structure Orderly (q : Requeue) : Prop where
  all : q.order.Perm (List.range q.arrived)
  keeps : ∀ k l, k < l → l < q.arrived → Before k l q.order ∨ (k, l) ∈ q.overtaken

theorem Orderly.initial : ({} : Requeue).Orderly where
  all := .nil
  keeps _ _ _ early := nomatch early

namespace Orderly

variable {q : Requeue}

theorem mem (orderly : q.Orderly) {k : Nat} : k ∈ q.order ↔ k < q.arrived := by
  rw [orderly.all.mem_iff, List.mem_range]

theorem nodup (orderly : q.Orderly) : q.order.Nodup :=
  orderly.all.nodup_iff.mpr List.nodup_range

/-- Nothing served waits. -/
theorem not_waiting (orderly : q.Orderly) {k : Nat} (served : k ∈ q.served) : k ∉ q.waiting :=
  fun waits => (List.nodup_append.mp orderly.nodup).2.2 k served k waits rfl

theorem arrive (orderly : q.Orderly) : q.arrive.Orderly := by
  have order : q.arrive.order = q.order ++ [q.arrived] := by
    simp [Requeue.arrive, Requeue.order]
  constructor
  · rw [order, show q.arrive.arrived = q.arrived + 1 from rfl, List.range_succ]
    exact orderly.all.append_right _
  · intro k l lt early
    rw [order]
    rcases Nat.lt_succ_iff_lt_or_eq.mp early with old | rfl
    · exact (orderly.keeps k l lt old).imp_left fun before => before.append _
    · exact .inl ⟨q.order, [q.arrived], rfl, orderly.mem.mpr lt, List.mem_singleton_self _⟩

theorem serve (orderly : q.Orderly) : q.serve.Orderly := by
  have same : q.serve.order = q.order ∧ q.serve.arrived = q.arrived ∧
      q.serve.overtaken = q.overtaken := by
    unfold Requeue.serve
    split
    · exact ⟨rfl, rfl, rfl⟩
    · next k rest waiting => simp [Requeue.order, waiting]
  constructor
  · rw [same.1, same.2.1]
    exact orderly.all
  · intro k l lt early
    rw [same.1, same.2.2]
    exact orderly.keeps k l lt (same.2.1 ▸ early)

theorem putBack (orderly : q.Orderly) : q.putBack.Orderly := by
  cases waiting : q.waiting with
  | nil => simpa [Requeue.putBack, waiting] using orderly
  | cons h rest =>
      have old : q.order = q.served ++ h :: rest := by rw [Requeue.order, waiting]
      have new : q.putBack.order = q.served ++ (rest ++ [h]) := by
        simp [Requeue.putBack, Requeue.order, waiting]
      have arrived : q.putBack.arrived = q.arrived := by simp [Requeue.putBack, waiting]
      have log : q.putBack.overtaken = q.overtaken ++ rest.map fun l => (h, l) := by
        simp [Requeue.putBack, waiting]
      constructor
      · rw [arrived]
        refine .trans ?_ orderly.all
        rw [old, new]
        exact .append_left _ (List.perm_append_singleton h rest)
      · intro k l lt early
        rw [arrived] at early
        rw [log, new, List.mem_append]
        rcases orderly.keeps k l lt early with before | passed
        · rw [old] at before
          rcases before.cut with served | ⟨first, second⟩ | ⟨as, bs, eq, first, second⟩
          · exact .inl (served.append _)
          · exact .inl ⟨q.served, _, rfl, first, by simpa [or_comm] using second⟩
          · -- Both still wait, so only the head is overtaken.
            cases as with
            | nil => cases first
            | cons a as =>
                cases eq
                rcases List.mem_cons.mp first with rfl | inner
                · exact .inr (.inr (List.mem_map.mpr ⟨l, List.mem_append_right _ second, rfl⟩))
                · refine .inl ⟨q.served ++ as, bs ++ [h], by simp, ?_, ?_⟩
                  · exact List.mem_append_right _ inner
                  · exact List.mem_append_left _ second
        · exact .inr (.inl passed)

/-- What is served was served after everything earlier that it did not overtake. -/
theorem served_after (orderly : q.Orderly) {k l : Nat} (lt : k < l) (served : l ∈ q.served) :
    Before k l q.served ∨ (k, l) ∈ q.overtaken := by
  have early : l < q.arrived := orderly.mem.mp (List.mem_append_left _ served)
  have waits := orderly.not_waiting served
  refine (orderly.keeps k l lt early).imp_left fun before => ?_
  rcases before.cut with both | ⟨-, second⟩ | ⟨as, bs, eq, -, second⟩
  · exact both
  · exact absurd second waits
  · exact absurd (eq ▸ List.mem_append_right as second) waits

end Orderly

end Requeue
