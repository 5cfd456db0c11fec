import MulticoreSim.Library.Numerals
import MulticoreSim.Coherence.FiciCpu

/-! # The traces of coherence mode

`load_proj3_trace` against its format. A line is read from its front: what stands
behind the numeral is not looked at.
-/

namespace Coherence

open Scan

/-! ## The loader -/

/-- One line, as `iss >> op >> addr_token` and `std::stoull` read it. -/
def parseLine (path : String) (lineno : Nat) (line : List Char) : Except String Instruction :=
  match skipSpace line with
  | [] => .error s!"bad trace line {lineno} in {path}: '{String.ofList line}'"
  | op :: rest =>
      let addrToken := token (skipSpace rest)
      if addrToken = [] ∨ op ≠ 'r' ∧ op ≠ 'w' then
        .error s!"bad trace line {lineno} in {path}: '{String.ofList line}'"
      else
        match stoull 16 addrToken with
        | .error _ =>
            .error s!"bad trace line {lineno} in {path}: unparseable address '{String.ofList addrToken}'"
        | .ok (addr, _) => .ok { action := op, address := addr }

/-- Blank lines are passed over, but counted. -/
def loadLines (path : String) (lineno : Nat) : List (List Char) → Except String (List Instruction)
  | [] => .ok []
  | line :: rest =>
      if line = [] then loadLines path (lineno + 1) rest
      else do
        let inst ← parseLine path lineno line
        let more ← loadLines path (lineno + 1) rest
        .ok (inst :: more)

/-- `load_proj3_trace`, of a file that is there or not. -/
def loadProj3Trace (path : String) : Option (List Char) → Except String (List Instruction)
  | none => .error s!"cannot open trace: {path}"
  | some text => loadLines path 1 (lines text)

/-! ## The format -/

/-- The lines that are not empty. -/
def records (text : List Char) : List (List Char) := (lines text).filter (· ≠ [])

/-- The op, blanks, and a hexadecimal address of 64 bits with nothing behind it. -/
structure Follows (line : List Char) (inst : Instruction) : Prop where
  op : inst.action = 'r' ∨ inst.action = 'w'
  address : ∃ gap pre ds, line = inst.action :: (gap ++ (pre ++ ds)) ∧
    gap ≠ [] ∧ (∀ c ∈ gap, isSpace c = true) ∧ (pre = [] ∨ pre = ['0', 'x']) ∧
    ds ≠ [] ∧ (∀ c ∈ ds, isDigit 16 c = true) ∧ numeral 16 ds < 2 ^ 64 ∧ inst.address = numeral 16 ds

/-- The line starts with an op and a numeral that fits 64 bits, blanks or none in front of each. -/
def Opens (line : List Char) : Prop :=
  ∃ lead op rest, line = lead ++ op :: rest ∧ (∀ c ∈ lead, isSpace c = true) ∧
    (op = 'r' ∨ op = 'w') ∧ Number rest

/-- What the format says of a text: its instructions where every line follows it, else a throw. -/
def MeetsFormat (path : String) (text : List Char) : Prop :=
  (∃ insts, loadProj3Trace path (some text) = .ok insts ∧ List.Forall₂ Follows (records text) insts) ∨
    (∃ line ∈ records text, ∀ inst, ¬Follows line inst) ∧
      ∃ what, loadProj3Trace path (some text) = .error what

variable {path : String} {n : Nat} {line text : List Char} {inst : Instruction}

theorem number_skipSpace (s : List Char) : Number (skipSpace s) ↔ Number s := by
  have same : skipSpace (skipSpace s) = skipSpace s := skipSpace_of_head (head_skipSpace s)
  rw [← stoull_ok_iff, ← stoull_ok_iff, stoull, stoull, same]

theorem skipSpace_op {lead rest : List Char} {op : Char} (blank : ∀ c ∈ lead, isSpace c = true)
    (known : op = 'r' ∨ op = 'w') : skipSpace (lead ++ op :: rest) = op :: rest := by
  rw [skipSpace_append blank, skipSpace_of_head]
  intro c head
  rw [← Option.some_inj.mp head]
  cases known with
  | inl read => rw [read]; rfl
  | inr write => rw [write]; rfl

/-- A line is accepted for how it starts. -/
theorem parseLine_iff (path : String) (n : Nat) (line : List Char) :
    (∃ inst, parseLine path n line = .ok inst) ↔ Opens line := by
  constructor
  · intro ⟨inst, read⟩
    obtain ⟨lead, split, blank⟩ := split_skipSpace line
    unfold parseLine at read
    cases found : skipSpace line with
    | nil =>
        rw [found] at read
        cases read
    | cons op rest =>
        rw [found] at read split
        simp only at read
        split at read
        · cases read
        · next known =>
            have known : op = 'r' ∨ op = 'w' := by
              by_contra other
              exact known (.inr (not_or.mp other))
            cases number : stoull 16 (token (skipSpace rest)) with
            | error fault =>
                rw [number] at read
                cases read
            | ok r =>
                have fits := (stoull_ok_iff _).mp ⟨r, number⟩
                rw [number_token (head_skipSpace rest), number_skipSpace] at fits
                exact ⟨lead, op, rest, split, blank, known, fits⟩
  · intro ⟨lead, op, rest, split, blank, known, number⟩
    rw [← number_skipSpace, ← number_token (head_skipSpace rest)] at number
    obtain ⟨r, read⟩ := (stoull_ok_iff _).mpr number
    obtain ⟨_, _, _, _, parts, -⟩ := number
    have some : token (skipSpace rest) ≠ [] := by
      intro none
      obtain ⟨c, more, rfl, -⟩ := parts.body
      have split := parts.split
      rw [none] at split
      simp at split
    unfold parseLine
    rw [split, skipSpace_op blank known]
    simp only
    rw [if_neg (not_or.mpr ⟨some, fun other => known.elim other.1 other.2⟩), read]
    exact ⟨_, rfl⟩

/-- A line that follows the format is read as it says. -/
theorem Follows.parse (follows : Follows line inst) (path : String) (n : Nat) :
    parseLine path n line = .ok inst := by
  obtain ⟨gap, pre, ds, split, -, blank, mark, some, digits, small, value⟩ := follows.address
  have first : ∃ c rest, ds = c :: rest := List.exists_cons_of_ne_nil some
  obtain ⟨c, rest, rfl⟩ := first
  have digit := digits c List.mem_cons_self
  have plain : prefixed (c :: rest) = false := by
    cases rest with
    | nil => rfl
    | cons x rest =>
        cases rest with
        | nil => rfl
        | cons d rest =>
            have second := digits x (by simp)
            have other : ¬(x = 'x' ∨ x = 'X') := by
              intro mark
              rcases mark with rfl | rfl
              · cases second
              · cases second
            simp only [not_or] at other
            simp [prefixed, other]
  have parts : Parts (pre ++ c :: rest) [] [] pre (c :: rest) := by
    refine ⟨rfl, by simp, .inl rfl, ?_, c, rest, rfl, digit⟩
    cases mark with
    | inl none => exact .inl ⟨none, plain⟩
    | inr hex => exact .inr (.inl hex)
  have words : ∀ d ∈ pre ++ c :: rest, isSpace d = false := by
    intro d mem
    cases List.mem_append.mp mem with
    | inl mem => exact parts.marks d mem
    | inr mem => exact not_isSpace_of_isDigit (digits d mem)
  have start : skipSpace (pre ++ c :: rest) = pre ++ c :: rest := by
    apply skipSpace_of_head
    intro d head
    exact words d (List.mem_of_head? head)
  have addr : token (skipSpace (gap ++ (pre ++ c :: rest))) = pre ++ c :: rest := by
    have whole := token_append words []
    rw [List.append_nil] at whole
    rw [skipSpace_append blank, start, whole]
    exact List.append_nil _
  have all : (c :: rest).takeWhile (isDigit 16) = c :: rest := List.takeWhile_eq_self_iff.mpr digits
  have positive : (sign (skipSpace (pre ++ c :: rest))).1 = false := by
    rw [start]
    cases mark with
    | inl none => rw [none, List.nil_append, sign_of_isDigit digit]
    | inr hex => rw [hex]; rfl
  unfold parseLine
  rw [split, show inst.action :: (gap ++ (pre ++ c :: rest)) = [] ++ inst.action :: (gap ++ (pre ++ c :: rest))
    from rfl, skipSpace_op (by simp) follows.op]
  simp only
  rw [addr, if_neg (not_or.mpr ⟨by simp, fun other => follows.op.elim other.1 other.2⟩), stoull_hex,
    parts.hexBody]
  simp only
  rw [all, if_neg (by simp), if_neg (Nat.not_le_of_lt small), positive]
  simp [← value]

/-- The last character of such a line is a digit. -/
theorem Follows.last (follows : Follows line inst) : ∀ c ∈ line.getLast?, isDigit 16 c = true := by
  obtain ⟨gap, pre, ds, split, -, -, -, some, digits, -⟩ := follows.address
  intro c last
  have whole : line = (inst.action :: (gap ++ pre)) ++ ds := by rw [split]; simp
  rw [whole, List.getLast?_append_of_ne_nil _ some] at last
  exact digits c (List.mem_of_getLast? last)

theorem Follows.opens (follows : Follows line inst) : Opens line :=
  (parseLine_iff "" 0 line).mp ⟨inst, follows.parse "" 0⟩

/-! ## Whole texts -/

theorem loadLines_iff (path : String) (n : Nat) (ls : List (List Char)) :
    (∃ insts, loadLines path n ls = .ok insts) ↔ ∀ line ∈ ls.filter (· ≠ []), Opens line := by
  induction ls generalizing n with
  | nil => simp [loadLines]
  | cons line ls ih =>
      unfold loadLines
      by_cases blank : line = []
      · rw [if_pos blank, ih]
        simp [blank]
      · rw [if_neg blank, List.filter_cons_of_pos (by simpa using blank), List.forall_mem_cons,
          ← parseLine_iff path n, ← ih (n + 1)]
        cases parseLine path n line with
        | error what => simp [bind, Except.bind]
        | ok inst =>
            cases loadLines path (n + 1) ls with
            | error what => simp [bind, Except.bind]
            | ok more => simp [bind, Except.bind]

theorem loadLines_follows (path : String) (n : Nat) (ls : List (List Char))
    (all : ∀ line ∈ ls.filter (· ≠ []), ∃ inst, Follows line inst) :
    ∃ insts, loadLines path n ls = .ok insts ∧ List.Forall₂ Follows (ls.filter (· ≠ [])) insts := by
  induction ls generalizing n with
  | nil => exact ⟨[], rfl, .nil⟩
  | cons line ls ih =>
      unfold loadLines
      by_cases blank : line = []
      · rw [if_pos blank]
        simpa [blank] using ih (n + 1) (by simpa [blank] using all)
      · rw [List.filter_cons_of_pos (by simpa using blank), List.forall_mem_cons] at all
        obtain ⟨⟨inst, follows⟩, all⟩ := all
        obtain ⟨more, loaded, matched⟩ := ih (n + 1) all
        rw [if_neg blank, List.filter_cons_of_pos (by simpa using blank), follows.parse path n, loaded]
        exact ⟨inst :: more, rfl, .cons follows matched⟩

theorem follows_of_matched {ls : List (List Char)} {insts : List Instruction}
    (matched : List.Forall₂ Follows ls insts) : ∀ line ∈ ls, ∃ inst, Follows line inst := by
  induction matched with
  | nil => simp
  | cons follows _ ih => exact List.forall_mem_cons.mpr ⟨⟨_, follows⟩, ih⟩

/-- A text is read as its format says if and only if every line of it follows the format,
    or one of them does not even open with an op and a numeral. -/
theorem load_proj3_trace_format (path : String) (text : List Char) :
    MeetsFormat path text ↔
      (∀ line ∈ records text, ∃ inst, Follows line inst) ∨ ∃ line ∈ records text, ¬Opens line := by
  have accepts := loadLines_iff path 1 (lines text)
  constructor
  · intro meets
    cases meets with
    | inl read =>
        obtain ⟨insts, -, matched⟩ := read
        exact .inl (follows_of_matched matched)
    | inr thrown =>
        obtain ⟨-, what, fails⟩ := thrown
        apply Or.inr
        by_contra all
        push Not at all
        obtain ⟨insts, loads⟩ := accepts.mpr all
        rw [loadProj3Trace, loads] at fails
        cases fails
  · intro either
    cases either with
    | inl all => exact .inl (loadLines_follows path 1 (lines text) all)
    | inr bad =>
        obtain ⟨line, mem, closed⟩ := bad
        apply Or.inr
        constructor
        · exact ⟨line, mem, fun inst follows => closed follows.opens⟩
        · cases loads : loadProj3Trace path (some text) with
          | error what => exact ⟨what, rfl⟩
          | ok insts => exact absurd (accepts.mp ⟨insts, loads⟩ line mem) closed

/-- Whatever stands behind the digits of an address is passed over in silence. -/
theorem address_tail_ignored :
    loadProj3Trace "p0.trace" (some "r 0x10zz\n".toList) = .ok [{ action := 'r', address := 16 }] ∧
      ¬MeetsFormat "p0.trace" "r 0x10zz\n".toList := by
  have loads : loadProj3Trace "p0.trace" (some "r 0x10zz\n".toList) =
      .ok [{ action := 'r', address := 16 }] := by rfl
  refine ⟨loads, fun meets => ?_⟩
  cases meets with
  | inl read =>
      obtain ⟨insts, -, matched⟩ := read
      have mem : "r 0x10zz".toList ∈ records "r 0x10zz\n".toList := by decide
      obtain ⟨inst, follows⟩ := follows_of_matched matched _ mem
      exact absurd (follows.last 'z' (by decide)) (by decide)
  | inr thrown =>
      obtain ⟨-, what, fails⟩ := thrown
      rw [loads] at fails
      cases fails

end Coherence
