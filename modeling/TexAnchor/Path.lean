/-! # Paths

A `Path` keeps the spelling it was given, but two spellings of the same components are the same
path: repeated and trailing slashes do not count, nor does a `.` except at the start of a relative
path.  When two paths are followed from one directory, a leading `.` does not count either, and a
path that can only be that of a directory leads to no file. -/

namespace TexAnchor

/-- A path of a source file, as it was spelled. -/
structure Path where
  spelling : String
deriving DecidableEq, Repr, Inhabited

namespace Path

/-- The stretches between slashes. -/
def stretches : List Char → List (List Char)
  | [] => [[]]
  | c :: text =>
    if c = '/' then [] :: stretches text
    else match stretches text with
      | [] => [[c]]
      | first :: later => (c :: first) :: later

/-- The components of a path: a slash for the root of an absolute path, a leading `.` of a relative
one, and the names. -/
def components (p : Path) : List (List Char) :=
  let names := (stretches p.spelling.toList).filter fun s => s ≠ [] ∧ s ≠ ['.']
  match p.spelling.toList with
  | '/' :: _ => ['/'] :: names
  | ['.'] => [['.']]
  | '.' :: '/' :: _ => ['.'] :: names
  | _ => names

/-- Whether two spellings have the same components. -/
def same (p q : Path) : Bool :=
  p.components == q.components

theorem same_iff {p q : Path} : p.same q = true ↔ p.components = q.components := by
  simp [same]

/-- A spelling that is empty, or ends in a slash, in `.` or in `..`, is that of a directory. -/
def isDirectory (p : Path) : Bool :=
  match (stretches p.spelling.toList).getLast? with
  | some last => last == [] || last == ['.'] || last == ['.', '.']
  | none => true

/-- The components that count when the path is followed from a directory: from there, a leading `.`
stays where it is. -/
def steps (p : Path) : List (List Char) :=
  p.components.filter fun s => s ≠ ['.']

/-- Whether two paths lead from one directory to the same file. -/
def sameFileWithin (p q : Path) : Bool :=
  !p.isDirectory && !q.isDirectory && p.steps == q.steps

end Path

end TexAnchor
