import Mathlib.Data.List.Basic
import Mathlib.Data.List.Pairwise

/-! # Register renaming

Instructions in program order, each with a tag that grows along the order. A
register read below a tag names the last writer below it, and is ready once that
writer no longer waits.
-/

namespace Renaming

variable {ι ρ : Type} [DecidableEq ρ] (dest : ι → Option ρ)

/-- The last instruction below a tag that writes a register. -/
def writerBelow (program : List (ι × Nat)) (bound : Nat) (reg : ρ) : Option (ι × Nat) :=
  (program.filter fun p => p.2 < bound ∧ dest p.1 = some reg).getLast?

/-- What a reader below a tag holds for a register: the tag of the last writer,
    ready or not as that writer has finished or waits. An absent operand, or one
    that nothing writes, is ready. -/
def Reads (program : List (ι × Nat)) (waits : Nat → Prop) (bound : Nat) (reg : Option ρ) (tag : Nat)
    (ready : Bool) : Prop :=
  match reg.bind (writerBelow dest program bound) with
  | none => ready = true
  | some writer => tag = writer.2 ∧ (ready = false ↔ waits writer.2)

variable {dest} {program : List (ι × Nat)} {waits waits' : Nat → Prop} {bound tag t : Nat}
  {reg : Option ρ} {ready : Bool} {i : ι}

theorem writerBelow_mem {r : ρ} {writer : ι × Nat} (last : writerBelow dest program bound r = some writer) :
    writer ∈ program ∧ writer.2 < bound ∧ dest writer.1 = some r := by
  have mem := List.mem_of_getLast? last
  simpa using mem

theorem writerBelow_later {r : ρ} (later : bound ≤ t) :
    writerBelow dest (program ++ [(i, t)]) bound r = writerBelow dest program bound r := by
  simp [writerBelow, List.filter_append, Nat.not_lt_of_le later]

theorem writerBelow_self {r : ρ} (writes : dest i = some r) :
    writerBelow dest (program ++ [(i, t)]) (t + 1) r = some (i, t) := by
  simp [writerBelow, List.filter_append, writes]

theorem writerBelow_other {r : ρ} (other : dest i ≠ some r) :
    writerBelow dest (program ++ [(i, t)]) bound r = writerBelow dest program bound r := by
  simp [writerBelow, List.filter_append, other]

/-- All bounds beyond the last tag are the same. -/
theorem writerBelow_beyond {r : ρ} {bound' : Nat} (below : ∀ p ∈ program, p.2 < bound)
    (below' : ∀ p ∈ program, p.2 < bound') :
    writerBelow dest program bound r = writerBelow dest program bound' r := by
  unfold writerBelow
  congr 1
  refine List.filter_congr fun p mem => ?_
  simp [below p mem, below' p mem]

namespace Reads

theorem absent : Reads dest program waits bound none tag true := rfl

theorem congr (reads : Reads dest program waits bound reg tag ready)
    (waiting : ∀ x, waits' x ↔ waits x) : Reads dest program waits' bound reg tag ready := by
  rwa [show waits' = waits from funext fun x => propext (waiting x)]

/-- A reader is unaffected by what comes after it. -/
theorem later (reads : Reads dest program waits bound reg tag ready) (after : bound ≤ t)
    (waiting : ∀ x, waits' x ↔ waits x ∨ x = t) :
    Reads dest (program ++ [(i, t)]) waits' bound reg tag ready := by
  cases reg with
  | none => exact reads
  | some r =>
      simp only [Reads, Option.bind_some, writerBelow_later after] at reads ⊢
      split at reads
      · exact reads
      · next writer last =>
          have before : writer.2 ≠ t :=
            Nat.ne_of_lt (Nat.lt_of_lt_of_le (writerBelow_mem last).2.1 after)
          exact ⟨reads.1, reads.2.trans (by simp [waiting, before])⟩

/-- A result wakes the readers that hold its tag. -/
theorem woken (reads : Reads dest program waits bound reg tag ready)
    (waiting : ∀ x, waits' x ↔ waits x ∧ x ≠ t) :
    Reads dest program waits' bound reg tag (decide (tag = t) || ready) := by
  unfold Reads at reads ⊢
  split
  · next none => simp only [none] at reads; simp [reads]
  · next writer last =>
      simp only [last] at reads
      obtain ⟨same, ready_iff⟩ := reads
      refine ⟨same, ?_⟩
      rw [waiting, ← same]
      by_cases here : tag = t
      · simp [here]
      · simp only [here, decide_false, Bool.false_or]
        rw [ready_iff, ← same, and_iff_left here]

/-- A result is nothing to a register that its instruction does not write. -/
theorem untouched {r : ρ} (reads : Reads dest program waits bound (some r) tag ready)
    (unique : ∀ p ∈ program, p.2 = t → dest p.1 ≠ some r)
    (waiting : ∀ x, waits' x ↔ waits x ∧ x ≠ t) :
    Reads dest program waits' bound (some r) tag ready := by
  unfold Reads at reads ⊢
  split
  · next none => simpa only [none] using reads
  · next writer last =>
      obtain ⟨mem, -, writes⟩ := writerBelow_mem last
      have other : writer.2 ≠ t := fun same => unique writer mem same writes
      simp only [last] at reads
      exact ⟨reads.1, reads.2.trans (by simp [waiting, other])⟩

/-- Once nothing waits, everything may be marked ready. -/
theorem settled (reads : Reads dest program waits bound reg tag ready) (idle : ∀ x, ¬waits' x) :
    Reads dest program waits' bound reg tag true := by
  unfold Reads at reads ⊢
  split
  · rfl
  · next writer last =>
      simp only [last] at reads
      exact ⟨reads.1, by simp [idle]⟩

/-- The destination of a new instruction. -/
theorem written {r : ρ} (writes : dest i = some r) (waiting : waits t) :
    Reads dest (program ++ [(i, t)]) waits (t + 1) (some r) t false := by
  simp [Reads, writerBelow_self writes, waiting]

/-- Any other register, read past a new instruction. -/
theorem passed {r : ρ} (reads : Reads dest program waits t (some r) tag ready) (other : dest i ≠ some r)
    (below : ∀ p ∈ program, p.2 < t) (waiting : ∀ x, waits' x ↔ waits x ∨ x = t) :
    Reads dest (program ++ [(i, t)]) waits' (t + 1) (some r) tag ready := by
  have bounds : writerBelow dest program t r = writerBelow dest program (t + 1) r :=
    writerBelow_beyond below fun p mem => Nat.lt_succ_of_lt (below p mem)
  simp only [Reads, Option.bind_some, writerBelow_other other, ← bounds] at reads ⊢
  split at reads
  · exact reads
  · next writer last =>
      have before : writer.2 ≠ t := Nat.ne_of_lt (writerBelow_mem last).2.1
      exact ⟨reads.1, reads.2.trans (by simp [waiting, before])⟩

/-- A reader that is not ready names a writer that waits. -/
theorem unready (reads : Reads dest program waits bound reg tag false) :
    ∃ r writer, reg = some r ∧ writerBelow dest program bound r = some writer ∧ tag = writer.2 ∧
      waits writer.2 := by
  cases reg with
  | none => cases reads
  | some r =>
      unfold Reads at reads
      split at reads
      · cases reads
      · next writer last => exact ⟨r, writer, rfl, last, reads.1, reads.2.mp rfl⟩

/-- A reader that is ready has a writer that has finished, where it has one. -/
theorem finished {r : ρ} {writer : ι × Nat} (reads : Reads dest program waits bound (some r) tag true)
    (last : writerBelow dest program bound r = some writer) : ¬waits writer.2 := by
  simp only [Reads, Option.bind_some, last] at reads
  simpa using reads.2

end Reads

end Renaming
