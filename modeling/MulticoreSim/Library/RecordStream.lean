import MulticoreSim.Library.ByteStream

/-! # Streams of records of one size

A stream is read by calling again and again until a call answers that there is no
more, or throws. From a stream of whole records that was cut off somewhere, the
calls give out the records that are still whole, and the rest decides the end.
-/

namespace ByteStream

/-- How the last call ends. -/
inductive Ending where
  | clean
  | threw (what : String)
  deriving DecidableEq, Repr

section

variable {σ α : Type}

/-- What the calls of a reader give out, up to the one that ends. -/
inductive ReadsTo (call : σ → Except String (Option α × σ)) : σ → List α → Ending → Prop where
  | ends {s s' : σ} (ran : call s = .ok (none, s')) : ReadsTo call s [] .clean
  | throws {s : σ} {what : String} (ran : call s = .error what) : ReadsTo call s [] (.threw what)
  | gives {s s' : σ} {a : α} {given : List α} {ending : Ending} (ran : call s = .ok (some a, s'))
      (rest : ReadsTo call s' given ending) : ReadsTo call s (a :: given) ending

namespace ReadsTo

variable {call : σ → Except String (Option α × σ)} {s s' : σ} {given given' : List α}
  {ending ending' : Ending}

/-- There is one way to read to the end. -/
theorem unique (first : ReadsTo call s given ending) (second : ReadsTo call s given' ending') :
    given = given' ∧ ending = ending' := by
  induction first generalizing given' with
  | ends ran =>
      cases second with
      | ends => exact ⟨rfl, rfl⟩
      | throws ran' | gives ran' => exact absurd (ran.symm.trans ran') (by simp)
  | throws ran =>
      cases second with
      | throws ran' =>
          cases ran.symm.trans ran'
          exact ⟨rfl, rfl⟩
      | ends ran' | gives ran' => exact absurd (ran.symm.trans ran') (by simp)
  | gives ran rest ih =>
      cases second with
      | gives ran' rest' =>
          cases ran.symm.trans ran'
          obtain ⟨same, same'⟩ := ih rest'
          exact ⟨congrArg _ same, same'⟩
      | ends ran' | throws ran' => exact absurd (ran.symm.trans ran') (by simp)

/-- Two states whose next calls agree read the same. -/
theorem of_call (same : call s = call s') (reads : ReadsTo call s' given ending) :
    ReadsTo call s given ending := by
  cases reads with
  | ends ran => exact .ends (same.trans ran)
  | throws ran => exact .throws (same.trans ran)
  | gives ran rest => exact .gives (same.trans ran) rest

/-- What is given out has been used up. -/
theorem bounded {each : Nat} (size : σ → Nat)
    (uses : ∀ s a s', call s = .ok (some a, s') → each + size s' ≤ size s)
    (reads : ReadsTo call s given ending) : each * given.length ≤ size s := by
  induction reads with
  | ends | throws => exact Nat.zero_le _
  | @gives s s' a given ending ran rest ih =>
      have used := uses _ _ _ ran
      rw [List.length_cons, Nat.mul_succ]
      omega

end ReadsTo

/-! ## Cut streams -/

variable {β : Type}

/-- A reader of records of one size: where it stands before a whole record it gives out
    what the record holds for it, and what is shorter it ends at, cleanly for some
    lengths. -/
structure ReadsRecords (call : σ → Except String (Option α × σ)) (stands : σ → List Byte → Prop)
    (encode : β → List Byte) (out : β → Option α) (each : Nat) (quiet : Nat → Prop)
    (valid : β → Prop) : Prop where
  size : ∀ b, (encode b).length = each
  whole : ∀ s b rest, valid b → stands s (encode b ++ rest) → ∃ s', stands s' rest ∧
    match out b with
    | some a => call s = .ok (some a, s')
    | none => call s = call s'
  part : ∀ s bytes, stands s bytes → bytes.length < each →
    ∃ ending, ReadsTo call s [] ending ∧ (ending = .clean ↔ quiet bytes.length)

variable {call : σ → Except String (Option α × σ)} {stands : σ → List Byte → Prop}
  {encode : β → List Byte} {out : β → Option α} {each : Nat} {quiet : Nat → Prop} {valid : β → Prop}

theorem ReadsRecords.cut (reader : ReadsRecords call stands encode out each quiet valid) (some : 0 < each)
    {records : List β} (good : ∀ b ∈ records, valid b) {n : Nat} (inside : n ≤ each * records.length)
    {s : σ} (at_start : stands s ((records.flatMap encode).take n)) :
    ∃ ending, ReadsTo call s ((records.take (n / each)).filterMap out) ending ∧
      (ending = .clean ↔ quiet (n % each)) := by
  induction records generalizing n s with
  | nil =>
      have none : n = 0 := by simpa using inside
      subst none
      obtain ⟨ending, reads, clean⟩ := reader.part s [] at_start some
      refine ⟨ending, ?_, ?_⟩
      · simpa using reads
      · simpa using clean
  | cons b rest ih =>
      have size := reader.size b
      rw [List.flatMap_cons] at at_start
      by_cases short : n < each
      · rw [List.take_append_of_le_length (by omega)] at at_start
        have length : ((encode b).take n).length = n := by
          rw [List.length_take]
          omega
        obtain ⟨ending, reads, clean⟩ := reader.part s _ at_start (by omega)
        refine ⟨ending, ?_, ?_⟩
        · rw [Nat.div_eq_of_lt short]
          exact reads
        · rw [Nat.mod_eq_of_lt short, clean, length]
      · obtain ⟨m, rfl⟩ : ∃ m, n = each + m := ⟨n - each, by omega⟩
        rw [← size, List.take_length_add_append] at at_start
        obtain ⟨s', next, called⟩ := reader.whole s b _ (good b List.mem_cons_self) at_start
        obtain ⟨ending, reads, clean⟩ := ih (fun b mem => good b (List.mem_cons_of_mem _ mem))
          (n := m) (by rw [List.length_cons, Nat.mul_succ] at inside; omega) next
        refine ⟨ending, ?_, ?_⟩
        · rw [Nat.add_div_left _ some, List.take_succ_cons, List.filterMap_cons]
          cases kept : out b with
          | none =>
              rw [kept] at called
              exact .of_call called reads
          | some a =>
              rw [kept] at called
              exact .gives called reads
        · rw [Nat.add_mod_left]
          exact clean

theorem ReadsRecords.length (reader : ReadsRecords call stands encode out each quiet valid)
    (records : List β) : (records.flatMap encode).length = each * records.length := by
  rw [List.length_flatMap, List.map_congr_left fun b _ => reader.size b, List.map_const',
    List.sum_replicate_nat, Nat.mul_comm]

/-- Nothing cut off: all records, and then the end. -/
theorem ReadsRecords.all (reader : ReadsRecords call stands encode out each quiet valid) (some : 0 < each)
    (empty : quiet 0) {records : List β} (good : ∀ b ∈ records, valid b) {s : σ}
    (at_start : stands s (records.flatMap encode)) : ReadsTo call s (records.filterMap out) .clean := by
  obtain ⟨ending, reads, clean⟩ := reader.cut some good (n := each * records.length) (Nat.le_refl _)
    (by rw [← reader.length, List.take_length]; exact at_start)
  rw [Nat.mul_mod_right] at clean
  rw [Nat.mul_div_cancel_left _ some, List.take_length] at reads
  rw [← clean.mpr empty]
  exact reads

end

end ByteStream
