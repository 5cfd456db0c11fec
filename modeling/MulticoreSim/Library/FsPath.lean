import Mathlib.Data.List.Basic

/-! # Paths

POSIX paths as `std::filesystem::path` takes them apart.
-/

/-- The names between the separators; an empty last one stands for a separator at the end. -/
structure FsPath where
  absolute : Bool
  names : List (List Char)
  deriving DecidableEq

namespace FsPath

variable {p : FsPath} {name : List Char}

def ofString (s : List Char) : FsPath :=
  let pieces := s.splitOn '/'
  let names := pieces.filter (· ≠ [])
  { absolute := s.head? = some '/'
    names := if names ≠ [] ∧ pieces.getLast? = some [] then names ++ [[]] else names }

/-- `string`, with single separators. -/
def string (p : FsPath) : String :=
  (if p.absolute then "/" else "") ++ "/".intercalate (p.names.map String.ofList)

/-- The names in front of what is appended, without the empty one at the end. -/
def folder (p : FsPath) : List (List Char) := p.names.filter (· ≠ [])

/-- `operator/`. An absolute path replaces what it is appended to. -/
def join (p q : FsPath) : FsPath :=
  if q.absolute then q
  else if q.names = [] then { p with names := if p.names = [] then [] else p.folder ++ [[]] }
  else { p with names := p.folder ++ q.names }

/-- `parent_path`. -/
def parent (p : FsPath) : FsPath := { p with names := p.names.dropLast }

/-- A name without a separator is a path of one name. -/
theorem ofString_name (some : name ≠ []) (single : '/' ∉ name) :
    ofString name = { absolute := false, names := [name] } := by
  have pieces : name.splitOn '/' = [name] := List.splitOn_eq_singleton single
  unfold ofString
  rw [pieces]
  obtain ⟨c, rest, rfl⟩ := List.exists_cons_of_ne_nil some
  simp only [List.mem_cons, not_or] at single
  simp [Ne.symm single.1]

/-- A file in the folder of a file that is appended to a path is one appended to the path. -/
theorem parent_join (p : FsPath) (file other : List Char) :
    (p.join { absolute := false, names := [file] }).parent.join { absolute := false, names := [other] } =
      p.join { absolute := false, names := [other] } := by
  simp [join, parent, folder]

end FsPath
