import Mathlib.Data.List.Nodup
import Mathlib.Logic.Function.Basic

/-! # Deposits

A table that keeps a value under a key until the key comes back for it. What is
there at any time is a list without two values under one key.
-/

variable {κ ν : Type} [DecidableEq κ]

/-- The table keeps the listed values, and no key twice. -/
structure Deposits (table : κ → Option ν) (kept : List (κ × ν)) : Prop where
  nodup : (kept.map (·.1)).Nodup
  find : ∀ k v, table k = some v ↔ (k, v) ∈ kept

namespace Deposits

variable {table : κ → Option ν} {kept front back : List (κ × ν)} {k : κ} {v : ν}

omit [DecidableEq κ] in
theorem none : Deposits (fun _ : κ => (.none : Option ν)) [] := ⟨List.nodup_nil, by simp⟩

omit [DecidableEq κ] in
theorem isSome_iff (deposits : Deposits table kept) : (table k).isSome = true ↔ k ∈ kept.map (·.1) := by
  rw [Option.isSome_iff_exists, List.mem_map]
  constructor
  · intro ⟨v, found⟩
    exact ⟨(k, v), (deposits.find k v).mp found, rfl⟩
  · intro ⟨⟨_, v⟩, mem, same⟩
    exact ⟨v, (deposits.find k v).mpr (same ▸ mem)⟩

omit [DecidableEq κ] in
theorem fresh (deposits : Deposits table kept) (new : k ∉ kept.map (·.1)) : table k = .none := by
  rw [← Option.not_isSome_iff_eq_none, deposits.isSome_iff]
  exact new

theorem deposit (deposits : Deposits table kept) (new : k ∉ kept.map (·.1)) :
    Deposits (Function.update table k (some v)) (kept ++ [(k, v)]) := by
  constructor
  · rw [List.map_append, List.nodup_append]
    refine ⟨deposits.nodup, List.nodup_singleton _, fun a mem b last same => ?_⟩
    rw [List.map_singleton, List.mem_singleton] at last
    rw [same, last] at mem
    exact new mem
  · intro k' v'
    rw [List.mem_append, List.mem_singleton, ← deposits.find, Prod.mk.injEq]
    by_cases same : k' = k
    · have absent := deposits.fresh new
      simp [same, absent, eq_comm]
    · simp [same]

omit [DecidableEq κ] in
theorem found (deposits : Deposits table (front ++ (k, v) :: back)) : table k = some v :=
  (deposits.find k v).mpr (List.mem_append_right _ List.mem_cons_self)

theorem collect (deposits : Deposits table (front ++ (k, v) :: back)) :
    Deposits (Function.update table k .none) (front ++ back) := by
  have nodup := deposits.nodup
  rw [List.map_append, List.map_cons, List.nodup_middle, List.nodup_cons, ← List.map_append] at nodup
  refine ⟨nodup.2, fun k' v' => ?_⟩
  have before := deposits.find k' v'
  rw [List.mem_append, List.mem_cons, or_left_comm, ← List.mem_append, Prod.mk.injEq] at before
  by_cases same : k' = k
  · subst same
    have gone : (k', v') ∉ front ++ back := fun mem => nodup.1 (List.mem_map.mpr ⟨_, mem, rfl⟩)
    rw [Function.update_self]
    exact ⟨nofun, fun mem => absurd mem gone⟩
  · simp [same, before]

end Deposits
