import MulticoreSim.Library.Scan
import Mathlib.Algebra.Group.Nat.Defs

/-! # Reading numerals

`std::stoull`, which reads a numeral off the front of a text, against the numerals it is
given: hexadecimal ones with anything behind them, and the decimal ones that streams print.
-/

namespace Scan

variable {s : List Char} {c : Char} {base n : Nat}

/-! ## Numerals -/

/-- The value of a digit or a letter. -/
def digitValue (c : Char) : Option Nat :=
  if 48 ≤ c.toNat ∧ c.toNat ≤ 57 then some (c.toNat - 48)
  else if 97 ≤ c.toNat ∧ c.toNat ≤ 122 then some (c.toNat - 87)
  else if 65 ≤ c.toNat ∧ c.toNat ≤ 90 then some (c.toNat - 55)
  else none

def digit (base : Nat) (c : Char) : Option Nat := (digitValue c).filter (· < base)

def isDigit (base : Nat) (c : Char) : Bool := (digit base c).isSome

def numeral (base : Nat) (ds : List Char) : Nat :=
  ds.foldl (fun n c => base * n + (digit base c).getD 0) 0

/-- The exceptions `std::invalid_argument` and `std::out_of_range`. -/
inductive Fault where
  | invalidArgument | outOfRange
  deriving DecidableEq, Repr

/-- Whether there is a minus, and what stands behind the sign. -/
def sign : List Char → Bool × List Char
  | '-' :: s => (true, s)
  | '+' :: s => (false, s)
  | s => (false, s)

/-- Text that starts with `0x` in front of a hexadecimal digit. -/
def prefixed : List Char → Bool
  | z :: x :: c :: _ => z = '0' && (x = 'x' || x = 'X') && isDigit 16 c
  | _ => false

/-- The base, detected if it is 0, and where the digits start. -/
def radix (base : Nat) (s : List Char) : Nat × List Char :=
  if (base = 0 || base = 16) && prefixed s then (16, s.drop 2)
  else if base = 0 then (if s.head? = some '0' then 8 else 10, s)
  else (base, s)

/-- `std::stoull`: the value, and the text behind the numeral. -/
def stoull (base : Nat) (s : List Char) : Except Fault (Nat × List Char) :=
  let (negative, s) := sign (skipSpace s)
  let (base, s) := radix base s
  let ds := s.takeWhile (isDigit base)
  if ds = [] then .error .invalidArgument
  else if 2 ^ 64 ≤ numeral base ds then .error .outOfRange
  else .ok (if negative then (2 ^ 64 - numeral base ds) % 2 ^ 64 else numeral base ds,
    s.dropWhile (isDigit base))

theorem isDigit_cases (digit : isDigit base c = true) :
    48 ≤ c.toNat ∧ c.toNat ≤ 57 ∨ 97 ≤ c.toNat ∧ c.toNat ≤ 122 ∨ 65 ≤ c.toNat ∧ c.toNat ≤ 90 := by
  unfold isDigit Scan.digit digitValue at digit
  split_ifs at digit
  · next h => exact .inl h
  · next h => exact .inr (.inl h)
  · next h => exact .inr (.inr h)
  · cases digit

theorem not_isSpace_of_isDigit (digit : isDigit base c = true) : isSpace c = false := by
  have cases := isDigit_cases digit
  simp only [isSpace, Bool.or_eq_false_iff, decide_eq_false_iff_not, Bool.and_eq_false_iff]
  omega

/-- A digit is no sign. -/
theorem sign_of_isDigit (digit : isDigit base c = true) (s : List Char) : sign (c :: s) = (false, c :: s) := by
  have cases := isDigit_cases digit
  unfold sign
  split
  · next eq =>
      obtain ⟨rfl, -⟩ := List.cons_eq_cons.mp eq
      simp at cases
  · next eq =>
      obtain ⟨rfl, -⟩ := List.cons_eq_cons.mp eq
      simp at cases
  · rfl

/-! ## Hexadecimal numerals -/

/-- The text from the first digit on, past blanks, a sign and a prefix. -/
def hexBody (s : List Char) : List Char := (radix 16 (sign (skipSpace s)).2).2

theorem radix_hex (s : List Char) : radix 16 s = (16, if prefixed s then s.drop 2 else s) := by
  unfold radix
  cases found : prefixed s with
  | true => rfl
  | false => rfl

theorem stoull_hex (s : List Char) : stoull 16 s =
    let ds := (hexBody s).takeWhile (isDigit 16)
    if ds = [] then .error .invalidArgument
    else if 2 ^ 64 ≤ numeral 16 ds then .error .outOfRange
    else .ok (if (sign (skipSpace s)).1 then (2 ^ 64 - numeral 16 ds) % 2 ^ 64 else numeral 16 ds,
      (hexBody s).dropWhile (isDigit 16)) := by
  simp only [stoull, hexBody, radix_hex]

/-- Blanks, a sign, a prefix and a digit. -/
structure Parts (s lead sgn pre body : List Char) : Prop where
  split : s = lead ++ (sgn ++ (pre ++ body))
  lead : ∀ c ∈ lead, isSpace c = true
  sgn : sgn = [] ∨ sgn = ['+'] ∨ sgn = ['-']
  pre : pre = [] ∧ prefixed body = false ∨ pre = ['0', 'x'] ∨ pre = ['0', 'X']
  body : ∃ c rest, body = c :: rest ∧ isDigit 16 c = true

variable {lead sgn pre body : List Char}

theorem Parts.hexBody (parts : Parts s lead sgn pre body) : hexBody s = body := by
  obtain ⟨c, rest, rfl, digit⟩ := parts.body
  -- What stands behind the sign starts with a digit, if only that of the prefix.
  have first : ∃ d more, pre ++ c :: rest = d :: more ∧ isDigit 16 d = true := by
    rcases parts.pre with ⟨rfl, -⟩ | rfl | rfl
    · exact ⟨c, rest, rfl, digit⟩
    · exact ⟨'0', _, rfl, by decide⟩
    · exact ⟨'0', _, rfl, by decide⟩
  have behind : (sign (skipSpace s)).2 = pre ++ c :: rest := by
    obtain ⟨d, more, eq, digit⟩ := first
    rw [parts.split, skipSpace_append parts.lead, eq]
    rcases parts.sgn with rfl | rfl | rfl
    · rw [List.nil_append, skipSpace_of_head, sign_of_isDigit digit]
      intro c head
      rw [← Option.some_inj.mp head]
      exact not_isSpace_of_isDigit digit
    · rfl
    · rfl
  rw [Scan.hexBody, behind, radix_hex]
  rcases parts.pre with ⟨rfl, plain⟩ | rfl | rfl
  · simp [plain]
  · simp [prefixed, digit]
  · simp [prefixed, digit]

/-- Text with a digit where one is looked for has these parts. -/
theorem parts_of_hexBody (some : ∃ c rest, hexBody s = c :: rest ∧ isDigit 16 c = true) :
    ∃ lead sgn pre, Parts s lead sgn pre (hexBody s) := by
  obtain ⟨lead, split, blank⟩ := split_skipSpace s
  have signed : ∃ sgn, skipSpace s = sgn ++ (sign (skipSpace s)).2 ∧
      (sgn = [] ∨ sgn = ['+'] ∨ sgn = ['-']) := by
    unfold sign
    split
    · next rest eq => exact ⟨['-'], eq, .inr (.inr rfl)⟩
    · next rest eq => exact ⟨['+'], eq, .inr (.inl rfl)⟩
    · exact ⟨[], rfl, .inl rfl⟩
  obtain ⟨sgn, signs, known⟩ := signed
  have marked : ∃ pre, (sign (skipSpace s)).2 = pre ++ hexBody s ∧
      (pre = [] ∧ prefixed (hexBody s) = false ∨ pre = ['0', 'x'] ∨ pre = ['0', 'X']) := by
    unfold hexBody
    generalize (sign (skipSpace s)).2 = u
    rw [radix_hex]
    cases found : prefixed u with
    | false => exact ⟨[], rfl, .inl ⟨rfl, by simpa using found⟩⟩
    | true =>
        unfold prefixed at found
        split at found
        · next z x c rest =>
            simp only [Bool.and_eq_true, decide_eq_true_eq, Bool.or_eq_true] at found
            obtain ⟨⟨rfl, mark⟩, -⟩ := found
            refine ⟨['0', x], rfl, .inr ?_⟩
            cases mark with
            | inl low => exact .inl (by rw [low])
            | inr high => exact .inr (by rw [high])
        · cases found
  obtain ⟨pre, marks, kind⟩ := marked
  exact ⟨lead, sgn, pre, by rw [← marks, ← signs]; exact split, blank, known, kind, some⟩

/-- A hexadecimal numeral that fits 64 bits, with anything behind it. -/
def Number (s : List Char) : Prop :=
  ∃ lead sgn pre body, Parts s lead sgn pre body ∧ numeral 16 (body.takeWhile (isDigit 16)) < 2 ^ 64

theorem takeWhile_ne_nil {p : Char → Bool} : s.takeWhile p ≠ [] ↔ ∃ c rest, s = c :: rest ∧ p c = true := by
  cases s with
  | nil => simp
  | cons c rest =>
      cases holds : p c with
      | true => simp [holds]
      | false => simp [holds]

theorem stoull_ok_iff (s : List Char) : (∃ r, stoull 16 s = .ok r) ↔ Number s := by
  rw [stoull_hex]
  simp only
  constructor
  · intro accepted
    obtain ⟨r, read⟩ := accepted
    by_cases none : (hexBody s).takeWhile (isDigit 16) = []
    · rw [if_pos none] at read
      cases read
    · rw [if_neg none] at read
      obtain ⟨lead, sgn, pre, parts⟩ := parts_of_hexBody (takeWhile_ne_nil.mp none)
      refine ⟨lead, sgn, pre, _, parts, ?_⟩
      by_contra large
      rw [if_pos (Nat.le_of_not_lt large)] at read
      cases read
  · intro number
    obtain ⟨lead, sgn, pre, body, parts, small⟩ := number
    rw [parts.hexBody, if_neg (takeWhile_ne_nil.mpr parts.body), if_neg (Nat.not_le_of_lt small)]
    exact ⟨_, rfl⟩

/-! ## Words -/

theorem takeWhile_token (s : List Char) : (token s).takeWhile (isDigit base) = s.takeWhile (isDigit base) := by
  unfold token
  rw [List.takeWhile_takeWhile]
  congr 1
  funext c
  cases digit : isDigit base c with
  | true => simp [not_isSpace_of_isDigit digit]
  | false => simp

theorem prefixed_token (s : List Char) : prefixed (token s) = prefixed s := by
  cases s with
  | nil => rfl
  | cons z s =>
      cases blank : isSpace z with
      | true =>
          have other : z ≠ '0' := by
            intro zero
            rw [zero] at blank
            cases blank
          have none : token (z :: s) = [] := by simp [token, blank]
          rw [none]
          cases s with
          | nil => rfl
          | cons x s =>
              cases s with
              | nil => rfl
              | cons c s => simp [prefixed, other]
      | false =>
          rw [token_cons blank]
          cases s with
          | nil => rfl
          | cons x s =>
              cases blank : isSpace x with
              | true =>
                  have other : ¬(x = 'x' ∨ x = 'X') := by
                    intro mark
                    rcases mark with rfl | rfl
                    · cases blank
                    · cases blank
                  have none : token (x :: s) = [] := by simp [token, blank]
                  rw [none]
                  cases s with
                  | nil => rfl
                  | cons c s =>
                      simp only [not_or] at other
                      simp [prefixed, other]
              | false =>
                  rw [token_cons blank]
                  cases s with
                  | nil => rfl
                  | cons c s =>
                      cases blank : isSpace c with
                      | true =>
                          have other : isDigit 16 c = false := by
                            by_contra digit
                            rw [not_isSpace_of_isDigit (by simpa using digit)] at blank
                            cases blank
                          have none : token (c :: s) = [] := by simp [token, blank]
                          simp [none, prefixed, other]
                      | false =>
                          rw [token_cons blank]
                          rfl

/-- What a sign and a prefix are made of is no blank. -/
theorem Parts.marks (parts : Parts s lead sgn pre body) : ∀ c ∈ sgn ++ pre, isSpace c = false := by
  intro c mem
  cases List.mem_append.mp mem with
  | inl mem =>
      rcases parts.sgn with rfl | rfl | rfl
      · cases mem
      · rw [List.mem_singleton.mp mem]
        rfl
      · rw [List.mem_singleton.mp mem]
        rfl
  | inr mem =>
      rcases parts.pre with ⟨rfl, -⟩ | rfl | rfl
      · cases mem
      · rcases List.mem_pair.mp mem with rfl | rfl
        · rfl
        · rfl
      · rcases List.mem_pair.mp mem with rfl | rfl
        · rfl
        · rfl

/-- A numeral is read off a word as off the text that starts with the word. -/
theorem number_token (head : ∀ c ∈ s.head?, isSpace c = false) : Number (token s) ↔ Number s := by
  constructor
  · intro number
    obtain ⟨lead, sgn, pre, body, parts, small⟩ := number
    have words : ∀ c ∈ body, isSpace c = false := by
      intro c mem
      apply mem_token (s := s)
      rw [parts.split]
      simp [mem]
    have whole : token s ++ s.dropWhile (!isSpace ·) = s := List.takeWhile_append_dropWhile
    have back : token (body ++ s.dropWhile (!isSpace ·)) = body := by
      rw [token_append words]
      have stops : token (s.dropWhile (!isSpace ·)) = [] := by
        have found := List.head?_dropWhile_not (!isSpace ·) s
        cases rest : s.dropWhile (!isSpace ·) with
        | nil => rfl
        | cons c more =>
            rw [rest] at found
            have blank : isSpace c = true := by simpa using found
            simp [token, blank]
      rw [stops, List.append_nil]
    refine ⟨lead, sgn, pre, body ++ s.dropWhile (!isSpace ·), ⟨?_, parts.lead, parts.sgn, ?_, ?_⟩, ?_⟩
    · rw [← List.append_assoc pre, ← List.append_assoc sgn, ← List.append_assoc lead, ← parts.split]
      exact whole.symm
    · rw [← prefixed_token, back]
      exact parts.pre
    · obtain ⟨c, rest, rfl, digit⟩ := parts.body
      exact ⟨c, _, rfl, digit⟩
    · rwa [← takeWhile_token, back]
  · intro number
    obtain ⟨lead, sgn, pre, body, parts, small⟩ := number
    have none : lead = [] := by
      cases lead with
      | nil => rfl
      | cons c lead =>
          have blank := parts.lead c List.mem_cons_self
          rw [head c (by rw [parts.split]; rfl)] at blank
          cases blank
    subst none
    refine ⟨[], sgn, pre, token body, ⟨?_, by simp, parts.sgn, ?_, ?_⟩, ?_⟩
    · rw [parts.split, List.nil_append, ← List.append_assoc, token_append parts.marks]
      simp
    · rw [prefixed_token]
      exact parts.pre
    · obtain ⟨c, rest, rfl, digit⟩ := parts.body
      exact ⟨c, _, token_cons (not_isSpace_of_isDigit digit) rest, digit⟩
    · rwa [takeWhile_token]

/-! ## Decimal numerals -/

theorem digitChar_digit {d : Nat} (small : d < 10) : ∀ base, 10 ≤ base → digit base d.digitChar = some d := by
  intro base large
  have value : digitValue d.digitChar = some d := by
    revert small
    revert d
    decide
  rw [digit, value, Option.filter_some]
  simp
  omega

theorem mem_toDigits (mem : c ∈ Nat.toDigits 10 n) : ∃ d < 10, c = d.digitChar := by
  induction n using Nat.strong_induction_on with
  | _ n ih =>
      by_cases small : n < 10
      · rw [Nat.toDigits_of_lt_base small] at mem
        exact ⟨n, small, List.mem_singleton.mp mem⟩
      · rw [Nat.toDigits_of_base_le (by decide) (by omega)] at mem
        cases List.mem_append.mp mem with
        | inl mem => exact ih (n / 10) (by omega) mem
        | inr mem => exact ⟨n % 10, by omega, List.mem_singleton.mp mem⟩

theorem isDigit_toDigits (mem : c ∈ Nat.toDigits 10 n) : isDigit 10 c = true := by
  obtain ⟨d, small, rfl⟩ := mem_toDigits mem
  rw [isDigit, digitChar_digit small 10 (Nat.le_refl 10)]
  rfl

theorem numeral_toDigits (n : Nat) : numeral 10 (Nat.toDigits 10 n) = n := by
  induction n using Nat.strong_induction_on with
  | _ n ih =>
      by_cases small : n < 10
      · rw [Nat.toDigits_of_lt_base small, numeral, List.foldl_cons, List.foldl_nil,
          digitChar_digit small 10 (Nat.le_refl 10)]
        simp
      · have front := ih (n / 10) (by omega)
        rw [numeral] at front
        rw [Nat.toDigits_of_base_le (by decide) (by omega), numeral, List.foldl_append, front,
          List.foldl_cons, List.foldl_nil, digitChar_digit (Nat.mod_lt n (by decide)) 10 (Nat.le_refl 10)]
        simp only [Option.getD_some]
        omega

/-- Only 0 is printed with a 0 in front. -/
theorem head_toDigits (positive : 0 < n) : (Nat.toDigits 10 n).head? ≠ some '0' := by
  induction n using Nat.strong_induction_on with
  | _ n ih =>
      by_cases small : n < 10
      · have digits : ∀ d < 10, 0 < d → some d.digitChar ≠ some '0' := by decide
        rw [Nat.toDigits_of_lt_base small, List.head?_cons]
        exact digits n small positive
      · have front := ih (n / 10) (by omega) (by omega)
        rw [Nat.toDigits_of_base_le (by decide) (by omega)]
        cases digits : Nat.toDigits 10 (n / 10) with
        | nil => exact absurd digits Nat.toDigits_ne_nil
        | cons d ds =>
            rw [digits] at front
            exact front

/-- A printed number is read back, with its base given or detected. -/
theorem stoull_toDigits (known : base = 0 ∨ base = 10) (fits : n < 2 ^ 64) :
    stoull base (Nat.toDigits 10 n) = .ok (n, []) := by
  obtain ⟨c, rest, eq⟩ := List.exists_cons_of_ne_nil (Nat.toDigits_ne_nil (n := n) (b := 10))
  have digits : ∀ d ∈ c :: rest, isDigit 10 d = true := fun d mem => isDigit_toDigits (eq ▸ mem)
  have digit := digits c List.mem_cons_self
  have value := numeral_toDigits n
  rw [eq] at value
  have start : skipSpace (c :: rest) = c :: rest := by
    apply skipSpace_of_head
    intro d head
    rw [← Option.some_inj.mp head]
    exact not_isSpace_of_isDigit digit
  by_cases zero : n = 0
  · subst zero
    have printed : c :: rest = ['0'] := eq.symm.trans (Nat.toDigits_zero 10)
    rw [eq, printed]
    cases known with
    | inl detect => rw [detect]; rfl
    | inr decimal => rw [decimal]; rfl
  · have other : c ≠ '0' := by
      intro same
      have head := head_toDigits (Nat.pos_of_ne_zero zero)
      rw [eq, same] at head
      exact head rfl
    have plain : prefixed (c :: rest) = false := by
      cases rest with
      | nil => rfl
      | cons x rest =>
          cases rest with
          | nil => rfl
          | cons d rest => simp [prefixed, other]
    have decimal : radix base (c :: rest) = (10, c :: rest) := by
      unfold radix
      rw [plain, Bool.and_false, if_neg Bool.false_ne_true]
      cases known with
      | inl detect => simp [detect, other]
      | inr given => simp [given]
    simp only [eq, stoull, start, sign_of_isDigit digit, decimal]
    rw [List.takeWhile_eq_self_iff.mpr digits, List.dropWhile_eq_nil_iff.mpr digits, value,
      if_neg (List.cons_ne_nil c rest), if_neg (Nat.not_le_of_lt fits), if_neg Bool.false_ne_true]

end Scan
