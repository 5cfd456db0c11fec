import MulticoreSim.Library.Numerals
import MulticoreSim.Library.FsPath

/-! # Program manifests

The text that names the threads' files of a program: a key and a value on each line,
comments from `#` on.
-/

namespace Trace

open Scan

structure ProgramManifest where
  name : List Char := []
  threadCount : Nat := 0
  programUid : Nat := 0
  paths : List FsPath := []
  source : FsPath
  deriving DecidableEq

/-! ## The parser -/

/-- A number in decimal, octal or hexadecimal, with nothing but blanks behind it. -/
def parseUint (s : List Char) (key : String) : Except String Nat :=
  if s = [] then .error s!"empty value for key '{key}'"
  else
    match stoull 0 s with
    | .error .invalidArgument => .error s!"bad integer for '{key}': {String.ofList s}"
    | .error .outOfRange => .error s!"integer out of range for '{key}': {String.ofList s}"
    | .ok (v, rest) =>
        if rest.all isSpace then .ok v
        else .error s!"trailing garbage in '{key}' value: {String.ofList s}"

/-- The number of a key `t<N>`. -/
def parseThreadKey : List Char → Option Nat
  | 't' :: d :: digits =>
      if (d :: digits).all (isDigit 10) then
        match stoull 10 (d :: digits) with
        | .ok (v, _) => if v < 2 ^ 32 then some v else none
        | .error _ => none
      else none
  | _ => none

/-- What has been read so far. -/
structure Draft where
  name : List Char := []
  threadCount : Nat := 0
  programUid : Nat := 0
  threadPaths : List (Nat × FsPath) := []
  sawThreads : Bool := false

/-- The line without its comment and the blanks around it. -/
def content (line : List Char) : List Char := trim (line.takeWhile (· ≠ '#'))

/-- Key and value, around the first colon. -/
def split (line : List Char) : List Char × List Char :=
  (trim (line.takeWhile (· ≠ ':')), trim ((line.dropWhile (· ≠ ':')).drop 1))

/-- A path from the manifest's folder. -/
def threadFile (path : FsPath) (val : List Char) : FsPath :=
  if (FsPath.ofString val).absolute then FsPath.ofString val else path.parent.join (FsPath.ofString val)

def addThread (onDisk : FsPath → Bool) (path : FsPath) (lineno : Nat) (d : Draft) (tid : Nat)
    (val : List Char) : Except String Draft :=
  let p := threadFile path val
  if !onDisk p then .error s!"{path.string}:{lineno}: thread file not found: {p.string}"
  else if d.threadPaths.any (·.1 = tid) then .error s!"{path.string}:{lineno}: duplicate t{tid}"
  else .ok { d with threadPaths := d.threadPaths ++ [(tid, p)] }

def readEntry (onDisk : FsPath → Bool) (path : FsPath) (lineno : Nat) (d : Draft)
    (key val : List Char) : Except String Draft :=
  if key = "program".toList then .ok { d with name := val }
  else if key = "threads".toList then do
    let v ← parseUint val "threads"
    if v = 0 ∨ v > 65536 then .error s!"threads must be in [1, 65536], got {String.ofList val}"
    else .ok { d with threadCount := v, sawThreads := true }
  else if key = "program_uid".toList then do
    let v ← parseUint val "program_uid"
    .ok { d with programUid := v }
  else
    match parseThreadKey key with
    | some tid => addThread onDisk path lineno d tid val
    | none => .error s!"{path.string}:{lineno}: unknown key '{String.ofList key}'"

def readLine (onDisk : FsPath → Bool) (path : FsPath) (lineno : Nat) (d : Draft) (line : List Char) :
    Except String Draft :=
  let line := content line
  if line = [] then .ok d
  else if ':' ∉ line then
    .error s!"{path.string}:{lineno}: expected 'key: value', got: {String.ofList line}"
  else readEntry onDisk path lineno d (split line).1 (split line).2

def readLines (onDisk : FsPath → Bool) (path : FsPath) (lineno : Nat) (d : Draft) :
    List (List Char) → Except String Draft
  | [] => .ok d
  | line :: rest => do
      let d ← readLine onDisk path lineno d line
      readLines onDisk path (lineno + 1) d rest

/-- The path of a thread, which has to be there. -/
def pathOf (path : FsPath) (d : Draft) (i : Nat) : Except String FsPath :=
  match d.threadPaths.find? (·.1 = i) with
  | some entry => .ok entry.2
  | none => .error s!"{path.string}: missing t{i}"

/-- Every thread has its entry, and there are no others. -/
def finish (path : FsPath) (d : Draft) : Except String ProgramManifest :=
  if !d.sawThreads then .error s!"{path.string}: missing required key 'threads'"
  else if d.threadPaths.length ≠ d.threadCount then
    .error s!"{path.string}: threads={d.threadCount} but found {d.threadPaths.length} t<N> entries"
  else do
    let paths ← (List.range d.threadCount).mapM (pathOf path d)
    .ok { name := d.name, threadCount := d.threadCount, programUid := d.programUid, paths, source := path }

/-- `parse_program_manifest`, of a file that is there or not. -/
def parseProgramManifest (onDisk : FsPath → Bool) (path : FsPath) : Option (List Char) →
    Except String ProgramManifest
  | none => .error s!"cannot open program manifest: {path.string}"
  | some text => do
      let d ← readLines onDisk path 1 {} (lines text)
      finish path d

/-! ## What it accepts -/

/-- A value of a line: no comment, no line break, no blank at either end. -/
structure Value (s : List Char) : Prop where
  comment : '#' ∉ s
  line : '\n' ∉ s
  head : ∀ c ∈ s.head?, isSpace c = false
  last : ∀ c ∈ s.getLast?, isSpace c = false

theorem value_nil : Value [] := ⟨by simp, by simp, by simp, by simp⟩

theorem Value.trim {s : List Char} (plain : Value s) : trim s = s := trim_eq plain.head plain.last

theorem mem_trim {s : List Char} {c : Char} (mem : c ∈ trim s) : c ∈ s := by
  have inside := (List.rdropWhile_prefix isSpace (l := skipSpace s)).subset mem
  exact (List.dropWhile_sublist isSpace).subset inside

/-- Read values are plain. -/
theorem value_split {line : List Char} (whole : '\n' ∉ line) : Value (split (content line)).2 := by
  have inside : ∀ c ∈ (split (content line)).2, c ∈ content line := fun c mem =>
    (List.dropWhile_sublist _).subset (List.mem_of_mem_drop (mem_trim mem))
  obtain ⟨head, last⟩ := trim_ends (((content line).dropWhile (· ≠ ':')).drop 1)
  constructor
  · intro mem
    have kept := List.mem_takeWhile_imp (mem_trim (inside _ mem))
    simp at kept
  · intro mem
    exact whole ((List.takeWhile_sublist _).subset (mem_trim (inside _ mem)))
  · exact head
  · exact last

/-- What the name and the number of threads come from. -/
structure Draft.Sane (d : Draft) : Prop where
  name : Value d.name
  threads : d.threadCount ≤ 65536

variable {onDisk : FsPath → Bool} {path : FsPath} {d d' : Draft} {n lineno : Nat}

theorem addThread_fields {tid : Nat} {val : List Char} (added : addThread onDisk path n d tid val = .ok d') :
    d'.name = d.name ∧ d'.threadCount = d.threadCount := by
  unfold addThread at added
  cases there : onDisk (threadFile path val) with
  | false => simp [there] at added
  | true =>
      cases twice : d.threadPaths.any (·.1 = tid) with
      | true => simp [there, twice] at added
      | false =>
          simp only [there, twice, Bool.not_true, Bool.false_eq_true, if_false, Except.ok.injEq] at added
          subst added
          exact ⟨rfl, rfl⟩

theorem Draft.Sane.line (sane : d.Sane) {line : List Char} (whole : '\n' ∉ line)
    (read : readLine onDisk path n d line = .ok d') : d'.Sane := by
  have plain := value_split whole
  unfold readLine at read
  simp only at read
  split at read
  · cases read
    exact sane
  · split at read
    · cases read
    · unfold readEntry at read
      split at read
      · cases read
        exact ⟨plain, sane.threads⟩
      · split at read
        · cases number : parseUint (split (content line)).2 "threads" with
          | error what =>
              rw [number] at read
              cases read
          | ok v =>
              rw [number] at read
              simp only [bind, Except.bind] at read
              split at read
              · cases read
              · next inside =>
                  cases read
                  exact ⟨sane.name, Nat.le_of_not_lt fun more => inside (.inr more)⟩
        · split at read
          · cases number : parseUint (split (content line)).2 "program_uid" with
            | error what =>
                rw [number] at read
                cases read
            | ok v =>
                rw [number] at read
                cases read
                exact ⟨sane.name, sane.threads⟩
          · cases thread : parseThreadKey (split (content line)).1 with
            | none =>
                rw [thread] at read
                cases read
            | some tid =>
                rw [thread] at read
                obtain ⟨name, threads⟩ := addThread_fields read
                exact ⟨name ▸ sane.name, threads ▸ sane.threads⟩

theorem Draft.Sane.lines (sane : d.Sane) {ls : List (List Char)} (whole : ∀ line ∈ ls, '\n' ∉ line)
    (read : readLines onDisk path n d ls = .ok d') : d'.Sane := by
  induction ls generalizing d n with
  | nil =>
      cases read
      exact sane
  | cons line ls ih =>
      rw [readLines] at read
      cases first : readLine onDisk path n d line with
      | error what =>
          rw [first] at read
          cases read
      | ok d'' =>
          rw [first] at read
          exact ih (sane.line (whole line List.mem_cons_self) first)
            (fun line mem => whole line (List.mem_cons_of_mem _ mem)) read

/-- A name that has been read is plain, and the number of threads in bounds. -/
theorem parse_sane {text : List Char} {m : ProgramManifest}
    (parsed : parseProgramManifest onDisk path (some text) = .ok m) :
    Value m.name ∧ m.threadCount ≤ 65536 := by
  unfold parseProgramManifest at parsed
  simp only at parsed
  cases read : readLines onDisk path 1 {} (lines text) with
  | error what =>
      rw [read] at parsed
      cases parsed
  | ok d =>
      rw [read] at parsed
      have sane : d.Sane := Draft.Sane.lines ⟨value_nil, Nat.zero_le _⟩ (mem_lines text) read
      simp only [bind, Except.bind] at parsed
      unfold finish at parsed
      split at parsed
      · cases parsed
      · split at parsed
        · cases parsed
        · cases found : (List.range d.threadCount).mapM (pathOf path d) with
          | error what =>
              rw [found] at parsed
              cases parsed
          | ok paths =>
              rw [found] at parsed
              cases parsed
              exact ⟨sane.name, sane.threads⟩

end Trace
