import Mathlib.Data.List.Basic
import Mathlib.Data.Nat.ModEq
import Mathlib.Logic.Function.Basic

/-! # Circular buffers

A queue in an array: a head, a tail and a count that go round a fixed number of
slots. What the buffer holds is a list; an element keeps its slot for as long as
it is held, and no two elements share one.
-/

/-- A buffer over `capacity` slots. -/
structure CircularBuffer (α : Type) where
  slots : Nat → α
  capacity : Nat
  head : Nat := 0
  tail : Nat := 0
  count : Nat := 0

namespace CircularBuffer

variable {α β : Type} {b : CircularBuffer α}

/-! ## Operations -/

def full (b : CircularBuffer α) : Bool := b.count == b.capacity

def empty (b : CircularBuffer α) : Bool := b.count == 0

def push (b : CircularBuffer α) (x : α) : CircularBuffer α :=
  { b with
    slots := Function.update b.slots b.tail x
    tail := (b.tail + 1) % b.capacity
    count := b.count + 1 }

def pop (b : CircularBuffer α) : CircularBuffer α :=
  { b with head := (b.head + 1) % b.capacity, count := b.count - 1 }

def modify (b : CircularBuffer α) (slot : Nat) (f : α → α) : CircularBuffer α :=
  { b with slots := Function.update b.slots slot (f (b.slots slot)) }

/-- The slot of the element at a position. -/
def slotAt (b : CircularBuffer α) (k : Nat) : Nat := (b.head + k) % b.capacity

/-- What the buffer holds, from head to tail. -/
def toList (b : CircularBuffer α) : List α := (List.range b.count).map fun k => b.slots (b.slotAt k)

/-! ## Buffers in use -/

/-- The tail is where the elements end, and they fit. -/
structure Sound (b : CircularBuffer α) : Prop where
  head : b.head % b.capacity = b.head
  tail : b.tail = b.slotAt b.count
  fits : b.count ≤ b.capacity

theorem Sound.make (capacity : Nat) (slots : Nat → α) : Sound { slots, capacity } :=
  ⟨Nat.zero_mod _, by simp [slotAt], Nat.zero_le _⟩

theorem Sound.slotAt_zero (sound : b.Sound) : b.slotAt 0 = b.head := sound.head

@[simp] theorem toList_make (capacity : Nat) (slots : Nat → α) :
    toList { slots, capacity } = [] := rfl

@[simp] theorem length_toList (b : CircularBuffer α) : b.toList.length = b.count := by
  simp [toList]

theorem toList_eq_nil : b.toList = [] ↔ b.count = 0 := by
  rw [← List.length_eq_zero_iff, length_toList]

theorem getElem?_toList (b : CircularBuffer α) (k : Nat) :
    b.toList[k]? = if k < b.count then some (b.slots (b.slotAt k)) else none := by
  simp only [toList, List.getElem?_map]
  split
  · next inside => rw [List.getElem?_range inside, Option.map_some]
  · next outside => rw [List.getElem?_eq_none (by simpa using outside), Option.map_none]

/-- Two positions within the capacity have two slots. -/
theorem slotAt_inj (b : CircularBuffer α) {j k : Nat} (here : j < b.capacity) (there : k < b.capacity)
    (same : b.slotAt j = b.slotAt k) : j = k := by
  have same : (b.head + j) % b.capacity = (b.head + k) % b.capacity := same
  have mod : b.head + j ≡ b.head + k [MOD b.capacity] := same
  have := Nat.ModEq.add_left_cancel' b.head mod
  exact Nat.ModEq.eq_of_lt_of_lt this here there

theorem Sound.push (sound : b.Sound) (room : b.full = false) (x : α) : (b.push x).Sound where
  head := sound.head
  tail := by
    have tail : b.tail = (b.head + b.count) % b.capacity := sound.tail
    simp [CircularBuffer.push, slotAt, tail, Nat.add_assoc]
  fits := by
    have other : b.count ≠ b.capacity := by simpa [full] using room
    have fits := sound.fits
    simp only [CircularBuffer.push]
    omega

theorem toList_push (sound : b.Sound) (room : b.full = false) (x : α) :
    (b.push x).toList = b.toList ++ [x] := by
  have room : b.count < b.capacity :=
    Nat.lt_of_le_of_ne sound.fits (by simpa [full] using room)
  have last : (b.push x).slots ((b.push x).slotAt b.count) = x := by
    have eq : (b.push x).slotAt b.count = b.tail := sound.tail.symm
    rw [eq]
    exact Function.update_self ..
  have earlier : ∀ k ∈ List.range b.count,
      (b.push x).slots ((b.push x).slotAt k) = b.slots (b.slotAt k) := by
    intro k mem
    have before : k < b.count := List.mem_range.mp mem
    have other : b.slotAt k ≠ b.tail := by
      rw [sound.tail]
      intro same
      have := b.slotAt_inj (Nat.lt_trans before room) room same
      omega
    exact Function.update_of_ne other ..
  have count : (b.push x).count = b.count + 1 := rfl
  rw [toList, count, List.range_succ, List.map_append, List.map_congr_left earlier, List.map_singleton,
    last, toList]

theorem Sound.pop (sound : b.Sound) (held : 0 < b.count) : b.pop.Sound where
  head := Nat.mod_mod ..
  tail := by
    have tail : b.tail = (b.head + b.count) % b.capacity := sound.tail
    have count : b.head + b.count = b.head + 1 + (b.count - 1) := by omega
    simp only [CircularBuffer.pop, slotAt, tail]
    rw [count, Nat.mod_add_mod]
  fits := Nat.le_trans (Nat.sub_le _ _) sound.fits

theorem slotAt_pop (b : CircularBuffer α) (k : Nat) : b.pop.slotAt k = b.slotAt (k + 1) := by
  simp only [CircularBuffer.pop, slotAt, Nat.mod_add_mod]
  congr 1
  omega

theorem toList_pop (held : 0 < b.count) : b.toList = b.slots (b.slotAt 0) :: b.pop.toList := by
  obtain ⟨n, count⟩ : ∃ n, b.count = n + 1 := ⟨b.count - 1, by omega⟩
  have popped : b.pop.count = n := by simp [CircularBuffer.pop, count]
  rw [toList, toList, count, popped, List.range_succ_eq_map, List.map_cons, List.map_map]
  refine congrArg _ (List.map_congr_left fun k _ => ?_)
  exact congrArg b.slots (b.slotAt_pop k).symm

theorem Sound.modify (sound : b.Sound) (slot : Nat) (f : α → α) : (b.modify slot f).Sound :=
  ⟨sound.head, sound.tail, sound.fits⟩

/-- What every rewritten element keeps, the buffer keeps. -/
theorem toList_map_modify {g : α → β} {f : α → α} (same : ∀ x, g (f x) = g x) (slot : Nat) :
    (b.modify slot f).toList.map g = b.toList.map g := by
  simp only [toList, List.map_map]
  refine List.map_congr_left fun k _ => ?_
  by_cases here : b.slotAt k = slot
  · subst here
    exact (congrArg g (Function.update_self ..)).trans (same _)
  · exact congrArg g (Function.update_of_ne here ..)

/-- Rewriting a slot rewrites the element of its position and no other. -/
theorem toList_modify (sound : b.Sound) {k : Nat} (held : k < b.count) (f : α → α) :
    (b.modify (b.slotAt k) f).toList = b.toList.modify k f := by
  refine List.ext_getElem? fun j => ?_
  rw [List.getElem?_modify, getElem?_toList, getElem?_toList]
  have count : (b.modify (b.slotAt k) f).count = b.count := rfl
  have slot : (b.modify (b.slotAt k) f).slotAt j = b.slotAt j := rfl
  rw [count, slot]
  by_cases inside : j < b.count
  · rw [if_pos inside, if_pos inside]
    by_cases same : k = j
    · subst same
      simp [CircularBuffer.modify]
    · have other : b.slotAt j ≠ b.slotAt k := fun eq => same
        (b.slotAt_inj (Nat.lt_of_lt_of_le held sound.fits) (Nat.lt_of_lt_of_le inside sound.fits) eq.symm)
      simp [CircularBuffer.modify, Function.update_of_ne other, same]
  · rw [if_neg inside, if_neg inside]
    simp

end CircularBuffer
