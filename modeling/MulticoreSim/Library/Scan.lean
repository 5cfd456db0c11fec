import Mathlib.Data.List.Induction
import Mathlib.Data.List.DropRight
import Mathlib.Data.List.TakeWhile

/-! # Reading text

Lines, blanks and words, as the C++ library reads them in its default locale.
-/

namespace Scan

variable {s t rest : List Char} {c : Char}

/-! ## Lines and blanks -/

/-- `std::isspace`. -/
def isSpace (c : Char) : Bool := c.toNat = 32 || 9 ≤ c.toNat && c.toNat ≤ 13

/-- What `std::getline` reads until it fails. -/
def lines : List Char → List (List Char)
  | [] => []
  | c :: rest =>
      if c = '\n' then [] :: lines rest
      else
        match lines rest with
        | [] => [[c]]
        | line :: more => (c :: line) :: more

def skipSpace (s : List Char) : List Char := s.dropWhile isSpace

/-- The characters up to the next blank. -/
def token (s : List Char) : List Char := s.takeWhile (!isSpace ·)

def trim (s : List Char) : List Char := (skipSpace s).rdropWhile isSpace

theorem lines_snoc (line rest : List Char) (whole : '\n' ∉ line) :
    lines (line ++ '\n' :: rest) = line :: lines rest := by
  induction line with
  | nil => rfl
  | cons c line ih =>
      simp only [List.mem_cons, not_or] at whole
      rw [List.cons_append, lines, if_neg (Ne.symm whole.1), ih whole.2]

/-- No line holds a line break. -/
theorem mem_lines (s : List Char) : ∀ line ∈ lines s, '\n' ∉ line := by
  induction s with
  | nil =>
      intro line mem
      cases mem
  | cons c rest ih =>
      intro line mem
      rw [lines] at mem
      split at mem
      · cases List.mem_cons.mp mem with
        | inl empty => simp [empty]
        | inr mem => exact ih line mem
      · next other =>
          split at mem
          · rw [List.mem_singleton.mp mem]
            simpa using Ne.symm other
          · next first more found =>
              rw [found] at ih
              cases List.mem_cons.mp mem with
              | inl head =>
                  have kept := ih first List.mem_cons_self
                  rw [head]
                  simp [Ne.symm other, kept]
              | inr mem => exact ih line (List.mem_cons_of_mem first mem)

theorem skipSpace_of_head (head : ∀ c ∈ s.head?, isSpace c = false) : skipSpace s = s := by
  cases s with
  | nil => rfl
  | cons c rest => exact List.dropWhile_cons_of_neg (by simp [head c rfl])

theorem skipSpace_append (blank : ∀ c ∈ s, isSpace c = true) (t : List Char) :
    skipSpace (s ++ t) = skipSpace t := by
  exact List.dropWhile_append_of_pos blank

theorem head_skipSpace (s : List Char) : ∀ c ∈ (skipSpace s).head?, isSpace c = false := by
  intro c head
  have found := List.head?_dropWhile_not isSpace s
  rw [show s.dropWhile isSpace = skipSpace s from rfl, Option.mem_def.mp head] at found
  simpa using found

/-- Text is blanks and what they are skipped for. -/
theorem split_skipSpace (s : List Char) : ∃ lead, s = lead ++ skipSpace s ∧ ∀ c ∈ lead, isSpace c = true :=
  ⟨s.takeWhile isSpace, List.takeWhile_append_dropWhile.symm, fun _ mem => List.mem_takeWhile_imp mem⟩

/-- Trimmed text neither starts nor ends with a blank. -/
theorem trim_ends (s : List Char) :
    (∀ c ∈ (trim s).head?, isSpace c = false) ∧ ∀ c ∈ (trim s).getLast?, isSpace c = false := by
  constructor
  · intro c head
    obtain ⟨tail, split⟩ := List.rdropWhile_prefix isSpace (l := skipSpace s)
    apply head_skipSpace s
    rw [← split]
    unfold trim at head
    cases found : (skipSpace s).rdropWhile isSpace with
    | nil =>
        rw [found] at head
        cases head
    | cons d more =>
        rw [found] at head
        exact head
  · intro c last
    unfold trim at last
    cases found : (skipSpace s).rdropWhile isSpace with
    | nil =>
        rw [found] at last
        cases last
    | cons d more =>
        have ne : (skipSpace s).rdropWhile isSpace ≠ [] := by
          rw [found]
          exact List.cons_ne_nil d more
        have stops := List.rdropWhile_last_not isSpace (skipSpace s) ne
        rw [List.getLast?_eq_some_getLast ne] at last
        rw [← Option.some_inj.mp (Option.mem_def.mp last)]
        simpa using stops

theorem trim_eq (head : ∀ c ∈ s.head?, isSpace c = false) (last : ∀ c ∈ s.getLast?, isSpace c = false) :
    trim s = s := by
  unfold trim
  rw [skipSpace_of_head head, List.rdropWhile_eq_self_iff]
  intro ne
  have found := last _ (List.getLast?_eq_some_getLast ne)
  simp [found]

theorem token_cons (word : isSpace c = false) (s : List Char) : token (c :: s) = c :: token s := by
  simp [token, word]

theorem token_append (word : ∀ c ∈ s, isSpace c = false) (t : List Char) : token (s ++ t) = s ++ token t :=
  List.takeWhile_append_of_pos (by simpa using word)

theorem mem_token (mem : c ∈ token s) : isSpace c = false := by
  simpa using List.mem_takeWhile_imp mem

end Scan
