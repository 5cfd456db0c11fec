import Mathlib.Data.List.Nodup

/-! # Lanes

Stations in a row, each with what it holds, the front of the row first. What
stands in a lane, read from its front, does not change when the first of one
station joins the end of the next, and loses its first when the front station
lets it out.
-/

variable {ι α : Type}

namespace Lane

/-- What stands in a lane, from its front. -/
def flow (stations : List ι) (content : ι → List α) : List α := stations.flatMap content

variable {stations : List ι} {content content' : ι → List α} {k k' : ι} {x : α}

theorem flow_congr (same : ∀ k ∈ stations, content' k = content k) :
    flow stations content' = flow stations content := by
  induction stations with
  | nil => rfl
  | cons k rest ih =>
      simp only [flow, List.flatMap_cons] at ih ⊢
      rw [same k (by simp), ih fun j mem => same j (List.mem_cons_of_mem k mem)]

theorem flow_append (front back : List ι) :
    flow (front ++ back) content = flow front content ++ flow back content := List.flatMap_append

/-- The first of station `k` passes on to the next one. -/
theorem flow_pass {front back : List ι} (nodup : (front ++ k' :: k :: back).Nodup)
    (from_k : content k = x :: content' k) (to_k' : content' k' = content k' ++ [x])
    (others : ∀ j ∈ front ++ k' :: k :: back, j ≠ k → j ≠ k' → content' j = content j) :
    flow (front ++ k' :: k :: back) content' = flow (front ++ k' :: k :: back) content := by
  have apart := List.nodup_append.mp nodup
  have tail := List.nodup_cons.mp apart.2.1
  have last := List.nodup_cons.mp tail.2
  have same_front : flow front content' = flow front content := by
    refine flow_congr fun j mem => others j (List.mem_append_left _ mem) ?_ ?_
    · rintro rfl
      exact apart.2.2 j mem j (by simp) rfl
    · rintro rfl
      exact apart.2.2 j mem j (by simp) rfl
  have same_back : flow back content' = flow back content := by
    refine flow_congr fun j mem => others j (by simp [mem]) ?_ ?_
    · rintro rfl
      exact last.1 mem
    · rintro rfl
      exact tail.1 (List.mem_cons_of_mem _ mem)
  rw [flow_append, flow_append, same_front]
  simp only [flow, List.flatMap_cons] at same_back ⊢
  rw [same_back, to_k', from_k]
  simp

/-- The first of the front station leaves the lane. -/
theorem flow_leave {back : List ι} (nodup : (k :: back).Nodup)
    (from_k : content k = x :: content' k) (others : ∀ j ∈ k :: back, j ≠ k → content' j = content j) :
    flow (k :: back) content = x :: flow (k :: back) content' := by
  have fresh := (List.nodup_cons.mp nodup).1
  have same : flow back content' = flow back content := by
    refine flow_congr fun j mem => others j (List.mem_cons_of_mem k mem) ?_
    rintro rfl
    exact fresh mem
  simp only [flow, List.flatMap_cons] at same ⊢
  rw [same, from_k, List.cons_append]

/-- Something joins the end of the last station. -/
theorem flow_join {front : List ι} {added : List α} (nodup : (front ++ [k]).Nodup)
    (joined : content' k = content k ++ added)
    (others : ∀ j ∈ front ++ [k], j ≠ k → content' j = content j) :
    flow (front ++ [k]) content' = flow (front ++ [k]) content ++ added := by
  have same : flow front content' = flow front content := by
    refine flow_congr fun j mem => others j (List.mem_append_left _ mem) ?_
    rintro rfl
    exact (List.nodup_append.mp nodup).2.2 j mem j (by simp) rfl
  rw [flow_append, flow_append, same]
  simp [flow, joined]

end Lane
