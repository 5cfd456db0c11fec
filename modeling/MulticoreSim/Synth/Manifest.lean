import MulticoreSim.Synth.Locks
import MulticoreSim.Trace.Format
import MulticoreSim.Trace.Manifest

/-! # The manifest of a synthesized program

What `write` leaves in its folder, and what `parse_program_manifest` makes of it. The
name is printed as it is, and read as any other value of a line.
-/

namespace Synth

open Scan
open Trace (FileHeader Value Draft ProgramManifest parseProgramManifest readLine readLines readEntry
  parseUint parseThreadKey threadFile addThread pathOf finish)
open Sync (TraceRecord)

/-! ## Writing -/

/-- `"t" + std::to_string(i) + ".casim"`. -/
def casimName (i : Nat) : List Char := 't' :: (Nat.toDigits 10 i ++ ".casim".toList)

def tracePath (outDir : FsPath) (i : Nat) : FsPath := outDir.join (FsPath.ofString (casimName i))

def manifestPath (outDir : FsPath) (name : List Char) : FsPath :=
  outDir.join (FsPath.ofString (name ++ ".manifest".toList))

/-- One line of a manifest. -/
def entry (key val : List Char) : List Char := key ++ (':' :: ' ' :: val)

def threadKey (i : Nat) : List Char := 't' :: Nat.toDigits 10 i

def manifestLines (name : List Char) (threads uid : Nat) : List (List Char) :=
  "# generated by casim_synth".toList :: entry "program".toList name ::
    entry "threads".toList (Nat.toDigits 10 threads) ::
    entry "program_uid".toList (Nat.toDigits 10 uid) ::
    (List.range threads).map fun i => entry (threadKey i) (casimName i)

structure Output where
  traces : List (FsPath × FileHeader × List TraceRecord)
  manifestPath : FsPath
  manifest : List Char

/-- `write`, where the files that can be opened are given. -/
def Program.writeTo (opens : FsPath → Bool) (p : Program) (name : List Char) (uid : BitVec 64)
    (outDir : FsPath) : Except String (Program × Output) := do
  let done ← p.write
  let traces := (List.range p.threadCount).map fun i =>
    let header : FileHeader :=
      { threadId := BitVec.ofNat 32 i, threadCount := BitVec.ofNat 32 p.threadCount, programUid := uid }
    (tracePath outDir i, header, p.traces i)
  match traces.find? fun t => !opens t.1 with
  | some t => .error s!"cannot open trace for writing: {t.1.string}"
  | none =>
      if !opens (manifestPath outDir name) then
        .error s!"casim_synth: cannot open manifest for writing: {(manifestPath outDir name).string}"
      else
        .ok (done,
          { traces, manifestPath := manifestPath outDir name
            manifest := (manifestLines name p.threadCount uid.toNat).flatMap (· ++ ['\n']) })

/-! ## Single lines -/

variable {ι : Type} {onDisk : FsPath → Bool} {path : FsPath} {d : Draft} {n k lineno : Nat}
  {key val name : List Char}

/-- A key as the writer prints it. -/
def IsKey (key : List Char) : Prop := key ≠ [] ∧ ∀ c ∈ key, isSpace c = false ∧ c ≠ ':' ∧ c ≠ '#'

theorem takeWhile_all {p : Char → Bool} {s : List Char} (all : ∀ c ∈ s, p c = true) : s.takeWhile p = s :=
  List.takeWhile_eq_self_iff.mpr all

theorem trim_blank (plain : Value val) : trim (' ' :: val) = val := by
  have skipped : skipSpace (' ' :: val) = val := by
    have blank := skipSpace_append (s := [' ']) (by simp [isSpace]) val
    exact blank.trans (skipSpace_of_head plain.head)
  have whole := plain.trim
  unfold trim at whole ⊢
  rw [skipped]
  rwa [skipSpace_of_head plain.head] at whole

/-- Only the blank in front of an empty value is trimmed off. -/
theorem content_entry (isKey : IsKey key) (plain : Value val) :
    Trace.content (entry key val) = key ++ ':' :: if val = [] then [] else ' ' :: val := by
  obtain ⟨some, chars⟩ := isKey
  have bare : (entry key val).takeWhile (· ≠ '#') = entry key val := by
    apply takeWhile_all
    intro c mem
    have other : c ≠ '#' := by
      intro same
      subst same
      simp only [entry, List.mem_append, List.mem_cons] at mem
      rcases mem with mem | mem | mem | mem
      · exact (chars _ mem).2.2 rfl
      · cases mem
      · cases mem
      · exact plain.comment mem
    simpa using other
  obtain ⟨k, key, rfl⟩ := List.exists_cons_of_ne_nil some
  have head : skipSpace (entry (k :: key) val) = entry (k :: key) val := by
    apply skipSpace_of_head
    intro c first
    rw [← Option.some_inj.mp first]
    exact (chars k List.mem_cons_self).1
  rw [Trace.content, bare, trim, head, entry]
  by_cases empty : val = []
  · rw [if_pos empty, empty]
    have drops := List.rdropWhile_concat_pos isSpace (k :: key ++ [':']) ' ' (by decide)
    have stays := List.rdropWhile_concat_neg isSpace (k :: key) ':' (by decide)
    rw [stays, List.append_assoc] at drops
    exact drops
  · rw [if_neg empty, List.rdropWhile_eq_self_iff]
    intro ne
    have last : (k :: key ++ ':' :: ' ' :: val).getLast ne = val.getLast empty := by
      simp [empty]
    have found := plain.last _ (List.getLast?_eq_some_getLast empty)
    rw [last, found]
    exact Bool.false_ne_true

theorem readLine_entry (isKey : IsKey key) (plain : Value val) :
    readLine onDisk path lineno d (entry key val) = readEntry onDisk path lineno d key val := by
  obtain ⟨some, chars⟩ := isKey
  have colon : (key ++ ':' :: if val = [] then [] else ' ' :: val).takeWhile (· ≠ ':') = key := by
    rw [List.takeWhile_append_of_pos fun c mem => by simpa using (chars c mem).2.1]
    simp
  have behind : (key ++ ':' :: if val = [] then [] else ' ' :: val).dropWhile (· ≠ ':') =
      ':' :: if val = [] then [] else ' ' :: val := by
    rw [List.dropWhile_append_of_pos fun c mem => by simpa using (chars c mem).2.1]
    simp
  have kept : trim key = key := by
    apply trim_eq
    · exact fun c head => (chars c (List.mem_of_head? head)).1
    · exact fun c last => (chars c (List.mem_of_getLast? last)).1
  have value : trim (if val = [] then [] else ' ' :: val) = val := by
    by_cases empty : val = []
    · rw [if_pos empty, empty]
      rfl
    · rw [if_neg empty]
      exact trim_blank plain
  have parts : Trace.split (key ++ ':' :: if val = [] then [] else ' ' :: val) = (key, val) := by
    rw [Trace.split, colon, behind, kept, List.drop_succ_cons, List.drop_zero, value]
  unfold readLine
  rw [content_entry ⟨some, chars⟩ plain]
  simp only
  rw [if_neg (by simp), if_neg (by simp), parts]

/-! ## The lines of a manifest -/

theorem isKey_program : IsKey "program".toList :=
  ⟨by decide, List.forall_iff_forall_mem.mp (by decide)⟩

theorem isKey_threads : IsKey "threads".toList :=
  ⟨by decide, List.forall_iff_forall_mem.mp (by decide)⟩

theorem isKey_program_uid : IsKey "program_uid".toList :=
  ⟨by decide, List.forall_iff_forall_mem.mp (by decide)⟩

/-- A digit is none of the characters that lines are taken apart at. -/
theorem digit_ne {c : Char} (digit : isDigit 10 c = true) :
    c ≠ ':' ∧ c ≠ '#' ∧ c ≠ '\n' ∧ c ≠ '/' ∧ c ≠ 'h' := by
  refine ⟨?_, ?_, ?_, ?_, ?_⟩
  all_goals
    intro same
    subst same
    cases digit

theorem isKey_threadKey (i : Nat) : IsKey (threadKey i) := by
  constructor
  · exact List.cons_ne_nil _ _
  · intro c mem
    cases List.mem_cons.mp mem with
    | inl head =>
        rw [head]
        decide
    | inr mem =>
        have digit := isDigit_toDigits mem
        exact ⟨not_isSpace_of_isDigit digit, (digit_ne digit).1, (digit_ne digit).2.1⟩

theorem mem_casimName {i : Nat} {c : Char} (mem : c ∈ casimName i) :
    isDigit 10 c = true ∨ c ∈ "t.casim".toList := by
  simp only [casimName, List.mem_cons, List.mem_append] at mem
  rcases mem with rfl | mem | mem
  · exact .inr (by decide)
  · exact .inl (isDigit_toDigits mem)
  · apply Or.inr
    have inside : ".casim".toList ⊆ "t.casim".toList := by decide
    exact inside mem

theorem casimName_avoids {i : Nat} {c : Char} (letter : c ∉ "t.casim".toList) (other : isDigit 10 c = false) :
    c ∉ casimName i := by
  intro mem
  cases mem_casimName mem with
  | inl digit =>
      rw [other] at digit
      cases digit
  | inr mem => exact letter mem

theorem value_digits (n : Nat) : Value (Nat.toDigits 10 n) where
  comment mem := (digit_ne (isDigit_toDigits mem)).2.1 rfl
  line mem := (digit_ne (isDigit_toDigits mem)).2.2.1 rfl
  head _ first := not_isSpace_of_isDigit (isDigit_toDigits (List.mem_of_head? first))
  last _ last := not_isSpace_of_isDigit (isDigit_toDigits (List.mem_of_getLast? last))

theorem value_casimName (i : Nat) : Value (casimName i) where
  comment := casimName_avoids (by decide) (by decide)
  line := casimName_avoids (by decide) (by decide)
  head c first := by
    rw [← Option.some_inj.mp first]
    decide
  last c last := by
    have ends : (casimName i).getLast? = some 'm' := by
      rw [casimName, ← List.cons_append, List.getLast?_append_of_ne_nil _ (by decide)]
      decide
    rw [ends] at last
    rw [← Option.some_inj.mp last]
    decide

theorem parseUint_digits (key : String) (fits : n < 2 ^ 64) : parseUint (Nat.toDigits 10 n) key = .ok n := by
  unfold parseUint
  rw [if_neg Nat.toDigits_ne_nil, stoull_toDigits (.inl rfl) fits]
  rfl

theorem parseThreadKey_threadKey (fits : n < 2 ^ 32) : parseThreadKey (threadKey n) = some n := by
  have digits : (Nat.toDigits 10 n).all (isDigit 10) = true :=
    List.all_eq_true.mpr fun _ mem => isDigit_toDigits mem
  have value := @stoull_toDigits 10 n (.inr rfl) (by omega)
  obtain ⟨c, rest, eq⟩ := List.exists_cons_of_ne_nil (Nat.toDigits_ne_nil (n := n) (b := 10))
  rw [eq] at digits value
  rw [threadKey, eq, parseThreadKey, if_pos digits, value]
  simp only
  rw [if_pos fits]

/-- The file of a thread, from the manifest's folder. -/
theorem threadFile_casimName (path : FsPath) (i : Nat) :
    threadFile path (casimName i) = path.parent.join (FsPath.ofString (casimName i)) := by
  have name := FsPath.ofString_name (List.cons_ne_nil 't' _)
    (casimName_avoids (i := i) (c := '/') (by decide) (by decide))
  have relative : (FsPath.ofString (casimName i)).absolute = false := by
    rw [casimName, name]
  rw [threadFile, relative, if_neg Bool.false_ne_true]

theorem readLine_thread (fits : n < 2 ^ 32) (fresh : ∀ e ∈ d.threadPaths, e.1 ≠ n) :
    readLine onDisk path lineno d (entry (threadKey n) (casimName n)) =
      if onDisk (threadFile path (casimName n)) then
        .ok { d with threadPaths := d.threadPaths ++ [(n, threadFile path (casimName n))] }
      else
        .error s!"{path.string}:{lineno}: thread file not found: {(threadFile path (casimName n)).string}" := by
  have program : threadKey n ≠ "program".toList := by
    intro same
    cases (List.cons_eq_cons.mp same).1
  have program_uid : threadKey n ≠ "program_uid".toList := by
    intro same
    cases (List.cons_eq_cons.mp same).1
  have threads : threadKey n ≠ "threads".toList := by
    intro same
    have digits : Nat.toDigits 10 n = "hreads".toList := (List.cons_eq_cons.mp same).2
    have mem : 'h' ∈ Nat.toDigits 10 n := by
      rw [digits]
      decide
    exact (digit_ne (isDigit_toDigits mem)).2.2.2.2 rfl
  have once : d.threadPaths.any (·.1 = n) = false := by simpa using fresh
  rw [readLine_entry (isKey_threadKey n) (value_casimName n), readEntry, if_neg program, if_neg threads,
    if_neg program_uid, parseThreadKey_threadKey fits]
  simp only [addThread, once]
  cases onDisk (threadFile path (casimName n)) with
  | false => rfl
  | true => rfl

theorem readLines_append (d : Draft) (xs ys : List (List Char)) :
    readLines onDisk path lineno d (xs ++ ys) =
      (readLines onDisk path lineno d xs).bind fun d => readLines onDisk path (lineno + xs.length) d ys := by
  induction xs generalizing d lineno with
  | nil => rfl
  | cons line xs ih =>
      rw [List.cons_append, readLines, readLines]
      cases readLine onDisk path lineno d line with
      | error what => rfl
      | ok d =>
          have count : lineno + (xs.length + 1) = lineno + 1 + xs.length := by omega
          rw [List.length_cons, count]
          exact ih d

/-- The entries of the first `k` threads. -/
def entries (path : FsPath) (k : Nat) : List (Nat × FsPath) :=
  (List.range k).map fun i => (i, threadFile path (casimName i))

/-- The lines of `k` threads add their entries, if all their files are there. -/
theorem readLines_threads (fits : k ≤ 2 ^ 32) (empty : d.threadPaths = []) :
    let ls := (List.range k).map fun i => entry (threadKey i) (casimName i)
    ((∀ i < k, onDisk (threadFile path (casimName i)) = true) →
      readLines onDisk path lineno d ls = .ok { d with threadPaths := entries path k }) ∧
    (¬(∀ i < k, onDisk (threadFile path (casimName i)) = true) →
      ∃ what, readLines onDisk path lineno d ls = .error what) := by
  induction k with
  | zero =>
      constructor
      · intro _
        cases d
        simp only at empty
        subst empty
        rfl
      · intro missing
        exact absurd (fun i below => absurd below (Nat.not_lt_zero i)) missing
  | succ k ih =>
      obtain ⟨all, some⟩ := ih (by omega)
      simp only [List.range_succ, List.map_append, List.map_singleton, readLines_append, List.length_map,
        List.length_range]
      by_cases front : ∀ i < k, onDisk (threadFile path (casimName i)) = true
      · rw [all front]
        simp only [Except.bind, readLines]
        rw [readLine_thread (by omega)]
        · constructor
          · intro whole
            rw [if_pos (whole k (Nat.lt_succ_self k))]
            simp [entries, List.range_succ, bind, Except.bind]
          · intro missing
            have last : ¬onDisk (threadFile path (casimName k)) = true := by
              intro there
              apply missing
              intro i below
              by_cases top : i = k
              · exact top ▸ there
              · exact front i (by omega)
            rw [if_neg last]
            exact ⟨_, rfl⟩
        · intro e mem
          obtain ⟨i, inside, rfl⟩ := List.mem_map.mp mem
          exact Nat.ne_of_lt (List.mem_range.mp inside)
      · obtain ⟨what, fails⟩ := some front
        rw [fails]
        constructor
        · intro whole
          exact absurd (fun i below => whole i (by omega)) front
        · intro _
          exact ⟨what, rfl⟩

/-! ## The whole manifest -/

theorem lines_flatMap {ls : List (List Char)} (whole : ∀ line ∈ ls, '\n' ∉ line) :
    lines (ls.flatMap (· ++ ['\n'])) = ls := by
  induction ls with
  | nil => rfl
  | cons line ls ih =>
      obtain ⟨first, rest⟩ := List.forall_mem_cons.mp whole
      rw [List.flatMap_cons, List.append_assoc]
      exact (lines_snoc line _ first).trans (congrArg (line :: ·) (ih rest))

theorem entry_line (isKey : IsKey key) (breaks : '\n' ∉ val) : '\n' ∉ entry key val := by
  intro mem
  simp only [entry, List.mem_append, List.mem_cons] at mem
  rcases mem with mem | mem | mem | mem
  · have blank := (isKey.2 _ mem).1
    cases blank
  · cases mem
  · cases mem
  · exact breaks mem

theorem manifest_lines (plain : Value name) (n uid : Nat) :
    lines ((manifestLines name n uid).flatMap (· ++ ['\n'])) = manifestLines name n uid := by
  apply lines_flatMap
  intro line mem
  simp only [manifestLines, List.mem_cons, List.mem_map] at mem
  rcases mem with rfl | rfl | rfl | rfl | ⟨i, -, rfl⟩
  · decide
  · exact entry_line isKey_program plain.line
  · exact entry_line isKey_threads (value_digits n).line
  · exact entry_line isKey_program_uid (value_digits uid).line
  · exact entry_line (isKey_threadKey i) (value_casimName i).line

/-- The lines in front of the threads'. -/
theorem readLines_front (plain : Value name) (some : 0 < n) (small : n ≤ 65536) {uid : Nat}
    (word : uid < 2 ^ 64) (rest : List (List Char)) :
    readLines onDisk path 1 {} ("# generated by casim_synth".toList :: entry "program".toList name ::
        entry "threads".toList (Nat.toDigits 10 n) ::
        entry "program_uid".toList (Nat.toDigits 10 uid) :: rest) =
      readLines onDisk path 5
        { name, threadCount := n, programUid := uid, threadPaths := [], sawThreads := true } rest := by
  have comment : readLine onDisk path 1 {} "# generated by casim_synth".toList = .ok {} := by rfl
  have bounds : ¬(n = 0 ∨ n > 65536) := by omega
  have count : readLine onDisk path 3 { name } (entry "threads".toList (Nat.toDigits 10 n)) =
      .ok { name, threadCount := n, sawThreads := true } := by
    rw [readLine_entry isKey_threads (value_digits n), readEntry, if_neg (by decide), if_pos rfl,
      parseUint_digits "threads" (by omega)]
    simp only [bind, Except.bind]
    rw [if_neg bounds]
  have number : readLine onDisk path 4 { name, threadCount := n, sawThreads := true }
      (entry "program_uid".toList (Nat.toDigits 10 uid)) =
      .ok { name, threadCount := n, programUid := uid, sawThreads := true } := by
    rw [readLine_entry isKey_program_uid (value_digits uid), readEntry, if_neg (by decide),
      if_neg (by decide), if_pos rfl, parseUint_digits "program_uid" word]
    rfl
  have title : readLine onDisk path 2 {} (entry "program".toList name) = .ok { name } := by
    rw [readLine_entry isKey_program plain, readEntry, if_pos rfl]
  simp only [readLines, comment, title, count, number, bind, Except.bind]

theorem mapM_ok {α β ε : Type} {f : α → Except ε β} {g : α → β} {l : List α}
    (each : ∀ x ∈ l, f x = .ok (g x)) : l.mapM f = .ok (l.map g) := by
  induction l with
  | nil => rfl
  | cons x l ih =>
      obtain ⟨first, rest⟩ := List.forall_mem_cons.mp each
      rw [List.mapM_cons, first, ih rest]
      rfl

theorem finish_entries (path : FsPath) (name : List Char) (n uid : Nat) :
    finish path { name, threadCount := n, programUid := uid, threadPaths := entries path n, sawThreads := true } =
      .ok { name, threadCount := n, programUid := uid
            paths := (List.range n).map fun i => threadFile path (casimName i)
            source := path } := by
  have count : (entries path n).length = n := by simp [entries]
  have found : ∀ i ∈ List.range n,
      pathOf path
        { name, threadCount := n, programUid := uid, threadPaths := entries path n, sawThreads := true } i =
        .ok (threadFile path (casimName i)) := by
    intro i mem
    have here : (entries path n).find? (·.1 = i) = some (i, threadFile path (casimName i)) := by
      rw [entries, List.find?_map]
      have only : (List.range n).find? ((fun e : Nat × FsPath => decide (e.1 = i)) ∘
          fun i => (i, threadFile path (casimName i))) = some i := by
        rw [List.find?_range_eq_some]
        refine ⟨by simp, mem, ?_⟩
        intro j below
        simp
        omega
      rw [only]
      rfl
    rw [pathOf]
    simp only [here]
  unfold finish
  simp only [count, ne_eq, not_true_eq_false, if_false, Bool.not_true, Bool.false_eq_true]
  rw [mapM_ok found]
  rfl

/-- A manifest with a plain name is read as it was written, if the threads' files are in
    its folder, and not at all if one of them is not. -/
theorem parse_manifest (plain : Value name) (some : 0 < n) (small : n ≤ 65536) {uid : Nat}
    (word : uid < 2 ^ 64) :
    let text := (manifestLines name n uid).flatMap (· ++ ['\n'])
    ((∀ i < n, onDisk (threadFile path (casimName i)) = true) →
      parseProgramManifest onDisk path (.some text) =
        .ok { name, threadCount := n, programUid := uid
              paths := (List.range n).map fun i => threadFile path (casimName i)
              source := path }) ∧
    (¬(∀ i < n, onDisk (threadFile path (casimName i)) = true) →
      ∃ what, parseProgramManifest onDisk path (.some text) = .error what) := by
  let front : Draft := { name, threadCount := n, programUid := uid, threadPaths := [], sawThreads := true }
  have fits : n ≤ 2 ^ 32 := by omega
  obtain ⟨all, missing⟩ := @readLines_threads onDisk path front n 5 fits rfl
  simp only [parseProgramManifest]
  rw [manifest_lines plain, manifestLines, readLines_front plain some small word]
  constructor
  · intro there
    rw [all there]
    exact finish_entries path name n uid
  · intro gone
    obtain ⟨what, fails⟩ := missing gone
    rw [fails]
    exact ⟨what, rfl⟩

/-! ## The round trip -/

/-- The manifest is read back: the name, the number of threads, the id, and for each
    thread a path to its file. A path leads to a file or to none. -/
def RoundTrips (leads : FsPath → Option ι) (outDir : FsPath) (name : List Char) (n uid : Nat) (out : Output) : Prop :=
  ∃ m, parseProgramManifest (fun p => (leads p).isSome) out.manifestPath (some out.manifest) = .ok m ∧
    m.name = name ∧ m.threadCount = n ∧ m.programUid = uid ∧ m.paths.length = n ∧
    ∀ i < n, ∃ p, m.paths[i]? = some p ∧ leads p = leads (tracePath outDir i)

/-- A name without a separator leaves the manifest in the folder of the threads' files. -/
theorem threadFile_manifestPath (outDir : FsPath) (single : '/' ∉ name) (i : Nat) :
    threadFile (manifestPath outDir name) (casimName i) = tracePath outDir i := by
  have file := FsPath.ofString_name (List.cons_ne_nil 't' _)
    (casimName_avoids (i := i) (c := '/') (by decide) (by decide))
  have manifest := @FsPath.ofString_name (name ++ ".manifest".toList) (by simp) (by
    rw [List.mem_append, not_or]
    exact ⟨single, by decide⟩)
  rw [threadFile_casimName, manifestPath, tracePath, manifest, casimName, file]
  exact FsPath.parent_join outDir _ _

theorem writeTo_manifest {opens : FsPath → Bool} {p p' : Program} {uid : BitVec 64} {outDir : FsPath}
    {out : Output} (wrote : p.writeTo opens name uid outDir = .ok (p', out)) :
    out.manifestPath = manifestPath outDir name ∧
      out.manifest = (manifestLines name p.threadCount uid.toNat).flatMap (· ++ ['\n']) := by
  unfold Program.writeTo at wrote
  obtain ⟨done, -, wrote⟩ := bind_ok wrote
  simp only at wrote
  split at wrote
  · cases wrote
  · split at wrote
    · cases wrote
    · cases wrote
      exact ⟨rfl, rfl⟩

/-- The manifest that a program writes is read back if and only if its name has no comment
    sign, no line break and no blank at either end, it has 65536 threads at most, and the
    folder of the manifest is that of the threads' files, as it is where the name has no
    separator. -/
theorem manifest_round_trip (leads : FsPath → Option ι) (opens : FsPath → Bool) (outDir : FsPath)
    (name : List Char) (uid : BitVec 64) {n : Nat} {calls : List Call} {p p' : Program} {out : Output}
    (built : build n calls = .ok p) (wrote : p.writeTo opens name uid outDir = .ok (p', out))
    (files : ∀ i < n, (leads (tracePath outDir i)).isSome = true) :
    RoundTrips leads outDir name n uid.toNat out ↔
      Value name ∧ n ≤ 65536 ∧
        ('/' ∈ name → ∀ i < n, leads (threadFile (manifestPath outDir name) (casimName i)) =
          leads (tracePath outDir i)) := by
  have threads := threadCount_run built
  have some : 0 < n := by
    obtain ⟨start, made, -⟩ := bind_ok built
    unfold Program.make at made
    by_contra none
    rw [if_pos (by omega)] at made
    cases made
  obtain ⟨place, text⟩ := writeTo_manifest wrote
  rw [threads] at text
  have word := uid.isLt
  unfold RoundTrips
  rw [place, text]
  constructor
  · intro ⟨m, parsed, named, count, _, _, paths⟩
    obtain ⟨plain, small⟩ := Trace.parse_sane parsed
    rw [named] at plain
    rw [count] at small
    refine ⟨plain, small, ?_⟩
    intro _ i below
    obtain ⟨all, missing⟩ := @parse_manifest (fun p => (leads p).isSome) (manifestPath outDir name) n name
      plain some small _ word
    by_cases there : ∀ i < n, (leads (threadFile (manifestPath outDir name) (casimName i))).isSome = true
    · rw [all there] at parsed
      cases parsed
      obtain ⟨q, found, same⟩ := paths i below
      simp only [List.getElem?_map, List.getElem?_range below, Option.map_some, Option.some.injEq] at found
      rw [found]
      exact same
    · obtain ⟨what, fails⟩ := missing there
      rw [fails] at parsed
      cases parsed
  · intro ⟨plain, small, folder⟩
    have same : ∀ i < n, leads (threadFile (manifestPath outDir name) (casimName i)) =
        leads (tracePath outDir i) := by
      intro i below
      by_cases separator : '/' ∈ name
      · exact folder separator i below
      · rw [threadFile_manifestPath outDir separator]
    obtain ⟨all, -⟩ := @parse_manifest (fun p => (leads p).isSome) (manifestPath outDir name) n name
      plain some small _ word
    refine ⟨_, all fun i below => ?_, rfl, rfl, rfl, by simp, ?_⟩
    · rw [same i below]
      exact files i below
    · intro i below
      refine ⟨threadFile (manifestPath outDir name) (casimName i), ?_, same i below⟩
      simp [below]

/-- Two threads that were written under the name `lock2`. -/
theorem lock2_round_trips : ∃ p p' out, build 2 [.mutex, .alus 0 1] = .ok p ∧
    p.writeTo (fun _ => true) "lock2".toList 0xCA51B#64 (FsPath.ofString "out".toList) = .ok (p', out) ∧
    RoundTrips (some : FsPath → Option FsPath) (FsPath.ofString "out".toList) "lock2".toList 2
      (0xCA51B#64).toNat out := by
  have built : ∃ p, build 2 [.mutex, .alus 0 1] = .ok p := ⟨_, rfl⟩
  obtain ⟨p, built⟩ := built
  have wrote : ∃ p' out, p.writeTo (fun _ => true) "lock2".toList 0xCA51B#64 (FsPath.ofString "out".toList) =
      .ok (p', out) := by
    cases built
    exact ⟨_, _, rfl⟩
  obtain ⟨p', out, wrote⟩ := wrote
  refine ⟨p, p', out, built, wrote, ?_⟩
  apply (manifest_round_trip some _ _ _ _ built wrote fun _ _ => rfl).mpr
  refine ⟨⟨by decide, by decide, ?_, ?_⟩, by decide, ?_⟩
  · intro c first
    cases first
    rfl
  · intro c last
    cases last
    rfl
  · intro separator
    exact absurd separator (by decide)

/-- What stands behind a comment sign in a name is lost. -/
theorem comment_sign_cuts_name : ∃ p p' out, build 1 [] = .ok p ∧
    p.writeTo (fun _ => true) "a#b".toList 0#64 (FsPath.ofString "out".toList) = .ok (p', out) ∧
    (∃ m, parseProgramManifest (fun _ => true) out.manifestPath (some out.manifest) = .ok m ∧
      m.name = "a".toList) ∧
    ¬RoundTrips (some : FsPath → Option FsPath) (FsPath.ofString "out".toList) "a#b".toList 1 0 out := by
  refine ⟨_, _, _, rfl, rfl, ⟨_, rfl, by decide⟩, ?_⟩
  intro ⟨m, parsed, named, _⟩
  have plain := (Trace.parse_sane parsed).1
  rw [named] at plain
  exact plain.comment (by decide)

end Synth
