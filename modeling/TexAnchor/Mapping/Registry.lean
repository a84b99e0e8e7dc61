import TexAnchor.Mapping.Basic

/-! # Mappings by file

A `Registry` keeps one list of mappings for each source file.  A new batch for a file replaces the
whole list.  Within a list every number occurs once: a later mapping takes the place of the first
one with its number. -/

namespace TexAnchor

/-- The mappings of each source file, under the first spelling of its path. -/
structure Registry where
  files : List (Path × List Mapping)
deriving Repr, Inhabited

namespace Registry

/-- No mappings. -/
def empty : Registry := ⟨[]⟩

/-- The mapping in the place of the one with its number, or else at the end. -/
def putByNumber (kept : List Mapping) (m : Mapping) : List Mapping :=
  if kept.any fun k => k.id == m.id then kept.map fun k => if k.id = m.id then m else k
  else kept ++ [m]

/-- One mapping for each number. -/
def onePerNumber (batch : List Mapping) : List Mapping :=
  batch.foldl putByNumber []

/-- The value under a path, or the default. -/
def lookup (file : Path) (files : List (Path × List Mapping)) : Option (List Mapping) :=
  (files.find? fun entry => entry.1.same file).map (·.2)

/-- A list of mappings under a path; a path that is there already keeps its spelling and place. -/
def store (file : Path) (batch : List Mapping) :
    List (Path × List Mapping) → List (Path × List Mapping)
  | [] => [(file, batch)]
  | (key, old) :: files =>
    if key.same file then (key, batch) :: files else (key, old) :: store file batch files

/-- The mappings of a file in the order of their batch. -/
def get (r : Registry) (file : Path) : List Mapping :=
  (lookup file r.files).getD []

/-- A file's batch replaced; mappings that name another file are left out. -/
def setFile (r : Registry) (file : Path) (batch : List Mapping) : Registry :=
  ⟨store file (onePerNumber (batch.filter fun m => m.sourceFile.same file)) r.files⟩

/-- A mapping added to the group of its file. -/
def addToGroup (m : Mapping) : List (Path × List Mapping) → List (Path × List Mapping)
  | [] => [(m.sourceFile, [m])]
  | (file, group) :: groups =>
    if file.same m.sourceFile then (file, group ++ [m]) :: groups
    else (file, group) :: addToGroup m groups

/-- The batch by file, files in the order in which they are first named. -/
def groupByFile (batch : List Mapping) : List (Path × List Mapping) :=
  batch.foldl (fun groups m => addToGroup m groups) []

/-- The batches of all files that a mixed batch names replaced. -/
def setMixed (r : Registry) (batch : List Mapping) : Registry :=
  (groupByFile batch).foldl (fun r group => r.setFile group.1 group.2) r

/-- The registry without a file. -/
def remove (r : Registry) (file : Path) : Registry :=
  ⟨r.files.filter fun entry => !entry.1.same file⟩

/-- The number of mappings of all files. -/
def count (r : Registry) : Nat :=
  r.files.foldl (fun total entry => total + entry.2.length) 0

/-- The files in the order of their spellings, each with its mappings. -/
def listing (r : Registry) : List (Path × List Mapping) :=
  r.files.mergeSort fun a b => a.1.spelling ≤ b.1.spelling

end Registry

end TexAnchor
