import Mathlib.Data.Finset.Card
import Mathlib.Data.List.Nodup
import Mathlib.Logic.Function.Basic

/-! # Lists in order of last use

A bounded list that moves what is used to its front and drops its last element
when it is full, against the history of uses and against times of last use.
-/

section

variable {α : Type} [DecidableEq α]

/-- Use an element of a list that holds `n` elements at most. -/
def touch (n : Nat) (l : List α) (x : α) : List α :=
  if x ∈ l then x :: l.erase x
  else if n ≤ l.length then x :: l.dropLast
  else x :: l

/-! ## The history -/

/-- All elements of a history, oldest use first, in order of last use. -/
def recent (history : List α) : List α := history.foldl (fun l x => x :: l.erase x) []

/-- The elements used after the last use of `x`. -/
def since (history : List α) (x : α) : List α := history.reverse.takeWhile (· ≠ x)

variable {n : Nat} {l : List α} {history : List α} {x y : α}

@[simp] theorem recent_nil : recent ([] : List α) = [] := rfl

theorem recent_snoc (history : List α) (x : α) : recent (history ++ [x]) = x :: (recent history).erase x := by
  simp [recent, List.foldl_append]

theorem since_self (history : List α) (x : α) : since (history ++ [x]) x = [] := by
  simp [since]

theorem since_other (history : List α) (ne : y ≠ x) :
    since (history ++ [y]) x = y :: since history x := by
  simp [since, ne]

theorem nodup_recent (history : List α) : (recent history).Nodup := by
  induction history using List.reverseRecOn with
  | nil => exact List.nodup_nil
  | append_singleton history x ih =>
      rw [recent_snoc]
      apply List.nodup_cons.mpr
      constructor
      · exact ih.not_mem_erase
      · exact ih.erase x

theorem mem_recent (history : List α) (x : α) : x ∈ recent history ↔ x ∈ history := by
  induction history using List.reverseRecOn with
  | nil => rfl
  | append_singleton history y ih =>
      rw [recent_snoc, List.mem_cons, List.mem_append, List.mem_singleton]
      by_cases eq : x = y
      · simp [eq]
      · rw [List.mem_erase_of_ne eq, ih]
        simp [eq]

/-! ## Who stands before an element -/

theorem takeWhile_erase {p : α → Bool} (l : List α) (passes : p y = true) :
    (l.erase y).takeWhile p = (l.takeWhile p).erase y := by
  induction l with
  | nil => rfl
  | cons z rest ih =>
      by_cases eq : z = y
      · subst eq
        simp [passes]
      · rw [List.erase_cons_tail (by simpa using eq), List.takeWhile_cons, List.takeWhile_cons]
        split
        · rw [ih, List.erase_cons_tail (by simpa using eq)]
        · rfl

/-- An element stands behind those that have been used since. -/
theorem before_recent (used : x ∈ history) :
    ((recent history).takeWhile (· ≠ x)).toFinset = (since history x).toFinset := by
  induction history using List.reverseRecOn with
  | nil => cases used
  | append_singleton history y ih =>
      rw [recent_snoc]
      by_cases eq : y = x
      · subst eq
        rw [since_self]
        simp
      · have used : x ∈ history := by simpa [Ne.symm eq] using used
        rw [since_other history eq, List.takeWhile_cons_of_pos (by simpa using eq),
          takeWhile_erase _ (by simpa using eq)]
        have unique : ((recent history).takeWhile (· ≠ x)).Nodup :=
          (nodup_recent history).sublist (List.takeWhile_sublist _)
        rw [List.toFinset_cons, List.toFinset_cons, ← ih used]
        ext z
        by_cases same : z = y
        · simp [same]
        · simp [same, List.mem_erase_of_ne same]

theorem mem_take (l : List α) (n : Nat) (x : α) :
    x ∈ l.take n ↔ x ∈ l ∧ (l.takeWhile (· ≠ x)).length < n := by
  induction l generalizing n with
  | nil => simp
  | cons y rest ih =>
      cases n with
      | zero => simp
      | succ n =>
          rw [List.take_succ_cons, List.mem_cons, List.mem_cons, ih n]
          by_cases eq : y = x
          · simp [eq]
          · rw [List.takeWhile_cons_of_pos (by simpa using eq)]
            simp [Ne.symm eq]

/-- What stands among the first `n`: it has been used, and fewer than `n` others have since. -/
theorem mem_take_recent (history : List α) (n : Nat) (x : α) :
    x ∈ (recent history).take n ↔ x ∈ history ∧ (since history x).toFinset.card < n := by
  rw [mem_take, mem_recent]
  apply and_congr_right
  intro used
  have unique : ((recent history).takeWhile (· ≠ x)).Nodup :=
    (nodup_recent history).sublist (List.takeWhile_sublist _)
  rw [← before_recent used, List.toFinset_card_of_nodup unique]

/-! ## The bounded list -/

theorem take_erase (l : List α) (n : Nat) (outside : x ∉ l.take (n + 1)) :
    (l.erase x).take n = l.take n := by
  induction l generalizing n with
  | nil => rfl
  | cons y rest ih =>
      simp only [List.take_succ_cons, List.mem_cons, not_or] at outside
      rw [List.erase_cons_tail (by simpa using Ne.symm outside.1)]
      cases n with
      | zero => rfl
      | succ n => rw [List.take_succ_cons, List.take_succ_cons, ih n outside.2]

theorem erase_take (l : List α) (n : Nat) (inside : x ∈ l.take (n + 1)) :
    (l.take (n + 1)).erase x = (l.erase x).take n := by
  induction l generalizing n with
  | nil => simp
  | cons y rest ih =>
      by_cases eq : y = x
      · simp [eq]
      · have tail : (y == x) = false := by simpa using eq
        simp only [List.take_succ_cons, List.mem_cons, Ne.symm eq, false_or] at inside
        rw [List.take_succ_cons, List.erase_cons_tail (by simp [tail]), List.erase_cons_tail (by simp [tail])]
        cases n with
        | zero => simp at inside
        | succ n => rw [ih n inside, List.take_succ_cons]

/-- The bounded list is the front of the whole one. -/
theorem touch_take (l : List α) (room : 0 < n) (x : α) : touch n (l.take n) x = (x :: l.erase x).take n := by
  obtain ⟨m, rfl⟩ : ∃ m, n = m + 1 := ⟨n - 1, by omega⟩
  rw [List.take_succ_cons]
  unfold touch
  split
  · next inside => rw [erase_take l m inside]
  · next outside =>
      rw [take_erase l m outside]
      split
      · next full =>
          rw [List.length_take] at full
          have count : min (min (m + 1) l.length - 1) (m + 1) = m := by omega
          rw [List.dropLast_eq_take, List.take_take, List.length_take, count]
      · next room =>
          rw [List.length_take] at room
          rw [List.take_of_length_le (by omega), List.take_of_length_le (by omega)]

theorem foldl_touch (room : 0 < n) (history : List α) :
    history.foldl (touch n) [] = (recent history).take n := by
  induction history using List.reverseRecOn with
  | nil => simp
  | append_singleton history x ih =>
      rw [List.foldl_append, ih, recent_snoc]
      exact touch_take _ room x

theorem length_touch (le : l.length ≤ n) (room : 0 < n) (x : α) : (touch n l x).length ≤ n := by
  unfold touch
  split
  · next mem =>
      have some := List.length_pos_of_mem mem
      rw [List.length_cons, List.length_erase_of_mem mem]
      omega
  · split
    · rw [List.length_cons, List.length_dropLast]
      omega
    · rw [List.length_cons]
      omega

theorem nodup_touch (nodup : l.Nodup) (x : α) : (touch n l x).Nodup := by
  unfold touch
  split
  · exact List.nodup_cons.mpr ⟨nodup.not_mem_erase, nodup.erase x⟩
  · next outside =>
      split
      · apply List.nodup_cons.mpr
        constructor
        · exact fun mem => outside (List.mem_of_mem_dropLast mem)
        · exact nodup.sublist (List.dropLast_sublist l)
      · exact List.nodup_cons.mpr ⟨outside, nodup⟩

/-! ## Times of last use -/

/-- The list is in order of last use, and nothing has been used later than `now`. -/
structure Timed (last : α → Nat) (now : Nat) (l : List α) : Prop where
  order : l.Pairwise fun x y => last y < last x
  past : ∀ x ∈ l, last x < now

variable {last : α → Nat} {now : Nat} {rest : List α}

omit [DecidableEq α] in
theorem Timed.nodup (timed : Timed last now l) : l.Nodup := by
  apply timed.order.imp
  intro x y later same
  exact Nat.lt_irrefl (last y) (same ▸ later)

omit [DecidableEq α] in
theorem Timed.sublist (timed : Timed last now l) (sub : rest.Sublist l) : Timed last now rest :=
  ⟨timed.order.sublist sub, fun x mem => timed.past x (sub.subset mem)⟩

/-- Something else is used. -/
theorem Timed.elsewhere (timed : Timed last now l) (outside : x ∉ l) :
    Timed (Function.update last x now) (now + 1) l where
  order := by
    apply timed.order.imp_of_mem
    intro y z memY memZ later
    rwa [Function.update_of_ne (ne_of_mem_of_not_mem memY outside),
      Function.update_of_ne (ne_of_mem_of_not_mem memZ outside)]
  past y mem := by
    rw [Function.update_of_ne (ne_of_mem_of_not_mem mem outside)]
    exact Nat.lt_succ_of_lt (timed.past y mem)

/-- What is used goes to the front. -/
theorem Timed.use (timed : Timed last now l) (outside : x ∉ l) :
    Timed (Function.update last x now) (now + 1) (x :: l) where
  order := by
    apply List.pairwise_cons.mpr
    constructor
    · intro y mem
      rw [Function.update_self, Function.update_of_ne (ne_of_mem_of_not_mem mem outside)]
      exact timed.past y mem
    · exact (timed.elsewhere outside).order
  past y mem := by
    rcases List.mem_cons.mp mem with rfl | mem
    · rw [Function.update_self]
      exact Nat.lt_succ_self now
    · exact (timed.elsewhere outside).past y mem

omit [DecidableEq α] in
/-- The last of the list was used least recently. -/
theorem Timed.least (timed : Timed last now l) {v : α} (final : l.getLast? = some v) (y : α) (mem : y ∈ l) :
    last v ≤ last y := by
  obtain ⟨front, rfl⟩ : ∃ front, l = front ++ [v] := by
    apply Exists.intro l.dropLast
    rw [List.getLast?_eq_some_iff] at final
    obtain ⟨front, rfl⟩ := final
    simp
  rcases List.mem_append.mp mem with mem | mem
  · exact Nat.le_of_lt ((List.pairwise_append.mp timed.order).2.2 y mem v List.mem_cons_self)
  · rw [List.mem_singleton.mp mem]

end
