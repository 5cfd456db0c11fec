import Mathlib.Data.Vector.Basic

/-! # Byte streams

Little-endian words, arrays and padding, written to the end of a stream and read
off its front. Readers compose, and so does what they read back and how many
bytes they use.
-/

namespace ByteStream

abbrev Byte := BitVec 8

/-- Reads a value off the front, if the bytes are there. -/
abbrev Get (α : Type) := List Byte → Option (α × List Byte)

/-- Reads a value off the front, or says what is missing. -/
abbrev Read := StateT (List Byte) (Except String)

/-! ## Writing -/

/-- A word of `n` bytes, the lowest first. -/
def putWord : (n : Nat) → BitVec (8 * n) → List Byte
  | 0, _ => []
  | n + 1, v => v.setWidth 8 :: putWord n (v.extractLsb' 8 (8 * n))

def putMany {α : Type} {n : Nat} (put : α → List Byte) (vs : List.Vector α n) : List Byte :=
  vs.toList.flatMap put

def putPad (n : Nat) : List Byte := List.replicate n 0

/-! ## Reading -/

def getWord : (n : Nat) → Get (BitVec (8 * n))
  | 0, bytes => some (0#0, bytes)
  | _ + 1, [] => none
  | n + 1, b :: bytes => (getWord n bytes).map fun (v, rest) => (v ++ b, rest)

def getMany {α : Type} (get : Get α) : (n : Nat) → Get (List.Vector α n)
  | 0, bytes => some (.nil, bytes)
  | n + 1, bytes => do
      let (v, bytes) ← get bytes
      let (vs, rest) ← getMany get n bytes
      return (v ::ᵥ vs, rest)

def skip (n : Nat) : Get Unit := fun bytes =>
  if n ≤ bytes.length then some ((), bytes.drop n) else none

def demand {α : Type} (what : String) (get : Get α) : Read α := fun bytes =>
  match get bytes with
  | some found => .ok found
  | none => .error what

variable {α β : Type}

/-! ## What is read back -/

/-- `get` reads back what `put` writes. -/
def Reads (put : α → List Byte) (get : Get α) : Prop :=
  ∀ a rest, get (put a ++ rest) = some (a, rest)

/-- From these bytes on the front of any stream, `read` makes this value. -/
def Yields (read : Read α) (bytes : List Byte) (a : α) : Prop :=
  ∀ rest, read.run (bytes ++ rest) = .ok (a, rest)

theorem reads_word (n : Nat) : Reads (putWord n) (getWord n) := by
  induction n with
  | zero =>
      intro v rest
      rw [getWord, BitVec.eq_nil v]
      rfl
  | succ n ih =>
      intro v rest
      rw [putWord, List.cons_append, getWord, ih]
      have whole : (v.extractLsb' 8 (8 * n) ++ v.setWidth 8 : BitVec (8 * n + 8)) = v := by
        ext i bound
        simp only [BitVec.getElem_append, BitVec.getElem_setWidth, BitVec.getElem_extractLsb']
        split
        · exact BitVec.getLsbD_eq_getElem bound
        · next high =>
            have eq : 8 + (i - 8) = i := by omega
            rw [eq]
            exact BitVec.getLsbD_eq_getElem bound
      rw [Option.map_some]
      exact congrArg (fun v => some (v, rest)) whole

theorem reads_many {put : α → List Byte} {get : Get α} (reads : Reads put get) (n : Nat) :
    Reads (putMany put) (getMany get n) := by
  induction n with
  | zero =>
      intro vs rest
      rw [List.Vector.eq_nil vs]
      rfl
  | succ n ih =>
      intro vs rest
      obtain ⟨v, vs, rfl⟩ := vs.exists_eq_cons
      have split : putMany put (v ::ᵥ vs) ++ rest = put v ++ (putMany put vs ++ rest) := by
        simp [putMany]
      rw [split, getMany, reads]
      simp only [Option.bind_eq_bind, Option.bind_some]
      rw [ih]
      rfl

theorem skip_pad (n : Nat) (rest : List Byte) : skip n (putPad n ++ rest) = some ((), rest) := by
  simp [skip, putPad]

theorem Yields.demand {put : α → List Byte} {get : Get α} (reads : Reads put get) (what : String)
    (a : α) : Yields (demand what get) (put a) a := by
  intro rest
  simp only [StateT.run, ByteStream.demand, reads a rest]

theorem Yields.pad (what : String) (n : Nat) :
    Yields (ByteStream.demand what (skip n)) (putPad n) () := by
  intro rest
  simp only [StateT.run, ByteStream.demand, skip_pad]

theorem Yields.pure (a : α) : Yields (Pure.pure a) [] a := fun _ => rfl

theorem Yields.bind {first : Read α} {next : α → Read β} {bytes more : List Byte} {a : α} {b : β}
    (yields : Yields first bytes a) (then_yields : Yields (next a) more b) :
    Yields (first >>= next) (bytes ++ more) b := by
  intro rest
  rw [StateT.run_bind, List.append_assoc, yields]
  exact then_yields rest

theorem Yields.map {read : Read α} {bytes : List Byte} {a : α} (f : α → β)
    (yields : Yields read bytes a) : Yields (f <$> read) bytes (f a) := by
  intro rest
  rw [StateT.run_map, yields]
  rfl

/-! ## How much is read -/

/-- A value that `read` makes has used `n` bytes. -/
def Uses (read : Read α) (n : Nat) : Prop :=
  ∀ bytes a rest, read.run bytes = .ok (a, rest) → bytes.length = n + rest.length

/-- As `Uses`. -/
def GetUses (get : Get α) (n : Nat) : Prop :=
  ∀ bytes a rest, get bytes = some (a, rest) → bytes.length = n + rest.length

theorem uses_word (n : Nat) : GetUses (getWord n) n := by
  induction n with
  | zero =>
      intro bytes v rest got
      cases got
      exact (Nat.zero_add _).symm
  | succ n ih =>
      intro bytes v rest got
      cases bytes with
      | nil => cases got
      | cons b bytes =>
          obtain ⟨⟨low, rest'⟩, found, eq⟩ := Option.map_eq_some_iff.mp got
          cases eq
          have used := ih bytes low rest found
          rw [List.length_cons]
          omega

/-- A word is missing where its bytes are. -/
theorem getWord_none {n : Nat} {bytes : List Byte} (missing : getWord n bytes = none) :
    bytes.length < n := by
  induction n generalizing bytes with
  | zero => cases missing
  | succ n ih =>
      cases bytes with
      | nil => exact Nat.succ_pos n
      | cons b bytes => exact Nat.succ_lt_succ (ih (Option.map_eq_none_iff.mp missing))

theorem uses_many {get : Get α} {each : Nat} (uses : GetUses get each) (n : Nat) :
    GetUses (getMany get n) (n * each) := by
  induction n with
  | zero =>
      intro bytes vs rest got
      cases got
      simp
  | succ n ih =>
      intro bytes vs rest got
      simp only [getMany, Option.bind_eq_bind, Option.bind_eq_some_iff] at got
      obtain ⟨⟨v, mid⟩, first, ⟨vs', rest'⟩, more, eq⟩ := got
      have same : rest' = rest := (Prod.mk.inj (Option.some.inj eq)).2
      subst same
      have used := uses bytes v mid first
      have used' := ih mid vs' rest' more
      rw [Nat.succ_mul]
      omega

theorem uses_skip (n : Nat) : GetUses (skip n) n := by
  intro bytes u rest got
  unfold skip at got
  split at got
  · cases got
    rw [List.length_drop]
    omega
  · cases got

theorem Uses.demand {get : Get α} {n : Nat} (uses : GetUses get n) (what : String) :
    Uses (ByteStream.demand what get) n := by
  intro bytes a rest ran
  simp only [StateT.run, ByteStream.demand] at ran
  split at ran
  · next found eq =>
      cases ran
      exact uses bytes a rest eq
  · cases ran

theorem Uses.pure (a : α) : Uses (Pure.pure a : Read α) 0 := by
  intro bytes b rest ran
  cases ran
  exact (Nat.zero_add _).symm

/-- Two reads in a row, apart. -/
theorem run_bind_ok {first : Read α} {next : α → Read β} {bytes rest : List Byte} {b : β}
    (ran : (first >>= next).run bytes = .ok (b, rest)) :
    ∃ a mid, first.run bytes = .ok (a, mid) ∧ (next a).run mid = .ok (b, rest) := by
  rw [StateT.run_bind] at ran
  cases got : first.run bytes with
  | error what =>
      rw [got] at ran
      cases ran
  | ok found =>
      rw [got] at ran
      exact ⟨found.1, found.2, rfl, ran⟩

theorem Uses.bind {first : Read α} {next : α → Read β} {n m : Nat} (uses : Uses first n)
    (then_uses : ∀ a, Uses (next a) m) : Uses (first >>= next) (n + m) := by
  intro bytes b rest ran
  obtain ⟨a, mid, got, more⟩ := run_bind_ok ran
  have used := uses bytes a mid got
  have used' := then_uses a mid b rest more
  omega

theorem Uses.map {read : Read α} {n : Nat} (f : α → β) (uses : Uses read n) :
    Uses (f <$> read) n := by
  intro bytes b rest ran
  rw [StateT.run_map] at ran
  cases got : read.run bytes with
  | error what =>
      rw [got] at ran
      cases ran
  | ok found =>
      rw [got] at ran
      cases ran
      exact uses bytes found.1 found.2 got

theorem Uses.throw (what : String) (n : Nat) : Uses (throw what : Read α) n := by
  intro bytes a rest ran
  cases ran

@[simp] theorem length_putWord (n : Nat) (v : BitVec (8 * n)) : (putWord n v).length = n := by
  induction n with
  | zero => rfl
  | succ n ih => rw [putWord, List.length_cons, ih]

@[simp] theorem length_putPad (n : Nat) : (putPad n).length = n := List.length_replicate

theorem length_putMany {put : α → List Byte} {each n : Nat} (size : ∀ a, (put a).length = each)
    (vs : List.Vector α n) : (putMany put vs).length = n * each := by
  simp [putMany, List.length_flatMap, size]

end ByteStream
