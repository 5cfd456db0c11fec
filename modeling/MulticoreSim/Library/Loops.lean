import Mathlib.Data.Nat.Basic

/-! # Loops that stop

`while (body());` over a state, where the body may fault. Such a loop stops where work
is finite and every turn that does none brings the next nearer.
-/

namespace Loop

variable {σ ε : Type} {body : σ → Except ε (Bool × σ)} {Q : σ → Prop}

/-- At most `fuel` turns. `none` where the loop would go on. -/
def run (body : σ → Except ε (Bool × σ)) : Nat → σ → Except ε (Option σ)
  | 0, _ => .ok none
  | fuel + 1, s =>
      match body s with
      | .error fault => .error fault
      | .ok (false, s) => .ok (some s)
      | .ok (true, s) => run body fuel s

/-- Work is done at most `bound` times, and `I k` says that it goes on after at most `k`
    turns without: at most `window` after each time. -/
theorem run_paced {I : Nat → σ → Prop} {work : σ → Nat} {bound window : Nat}
    (bounded : ∀ k s, I k s → work s ≤ bound)
    (turn : ∀ k s, I k s → ∃ more s', body s = .ok (more, s') ∧ (more = false ∧ Q s' ∨
      more = true ∧ (work s < work s' ∧ I window s' ∨ ∃ j < k, work s ≤ work s' ∧ I j s')))
    {k : Nat} {s : σ} (inv : I k s) {fuel : Nat} (enough : (bound - work s) * (window + 1) + k < fuel) :
    ∃ s', run body fuel s = .ok (some s') ∧ Q s' := by
  induction fuel generalizing s k with
  | zero => omega
  | succ fuel ih =>
      obtain ⟨more, s', ran, ⟨rfl, done⟩ | ⟨rfl, ⟨worked, next⟩ | ⟨j, nearer, kept, next⟩⟩⟩ := turn k s inv
      · exact ⟨s', by simp only [run, ran], done⟩
      · have left : (bound - work s' + 1) * (window + 1) ≤ (bound - work s) * (window + 1) := by
          apply Nat.mul_le_mul_right
          have := bounded _ s' next
          omega
        rw [Nat.succ_mul] at left
        obtain ⟨last, stopped, done⟩ := ih next (by omega)
        exact ⟨last, by simpa only [run, ran] using stopped, done⟩
      · have left : (bound - work s') * (window + 1) ≤ (bound - work s) * (window + 1) :=
          Nat.mul_le_mul_right _ (Nat.sub_le_sub_left kept _)
        obtain ⟨last, stopped, done⟩ := ih next (by omega)
        exact ⟨last, by simpa only [run, ran] using stopped, done⟩

end Loop
