import TexAnchor.Json.Value
import TexAnchor.Mapping.Basic
import TexAnchor.Text.Blank

/-! # Batches of mappings

The build step writes one mapping per line, each a JSON record of a kind, a number, a source file
and a line.  `readBatch` reads such a text; it stops at the first line that is neither blank nor a
mapping, and names it. -/

namespace TexAnchor

/-- Why a batch was not read. -/
inductive MappingError
  /-- The file is missing or is not text. -/
  | unreadable
  /-- The line is not a mapping. -/
  | malformed (line : Nat)
  /-- The line names the source line zero, but lines count from one. -/
  | zeroLine (line : Nat)
deriving DecidableEq, Repr

namespace Mapping

/-- The lines of a text, without their line feeds and the carriage returns right before those. -/
def lines : List Char → List (List Char)
  | [] => []
  | '\n' :: text => [] :: lines text
  | '\r' :: '\n' :: text => [] :: lines text
  | c :: text =>
    match lines text with
    | [] => [[c]]
    | first :: later => (c :: first) :: later

/-- The fields of a mapping record in order. -/
def fieldNames : List String := ["kind", "id", "source_file", "line"]

/-- The mapping that a record stands for; fields with other names do not matter. -/
def ofValue? (value : Json.Value) : Option Mapping := do
  match ← value.fields? true fieldNames with
  | [some kind, some id, some file, some line] =>
    return ⟨← kind.text?, ← id.word?, ⟨← file.text?⟩, ← line.word?⟩
  | _ => none

/-- The mapping that a line is. -/
def ofLine? (text : List Char) : Option Mapping :=
  (Json.read? text).bind ofValue?

/-- The mappings of consecutive lines, the first of which has the given number. -/
def readLines (number : Nat) : List (List Char) → Except MappingError (List Mapping)
  | [] => .ok []
  | line :: later =>
    if Text.isBlankText line then readLines (number + 1) later
    else match ofLine? line with
      | none => .error (.malformed number)
      | some mapping =>
        if mapping.line = 0 then .error (.zeroLine number)
        else (readLines (number + 1) later).map (mapping :: ·)

/-- The mappings of a batch. -/
def readBatch (text : List Char) : Except MappingError (List Mapping) :=
  readLines 1 (lines text)

/-- The mappings of a batch file, given by its bytes if it exists. -/
def loadBatch (file : Option ByteArray) : Except MappingError (List Mapping) :=
  match file.bind String.fromUTF8? with
  | some text => readBatch text.toList
  | none => .error .unreadable

end Mapping

/-- The report of the error. -/
def MappingError.message : MappingError → String
  | unreadable => "the mappings are missing or not text"
  | malformed line => s!"malformed mapping on line {line}"
  | zeroLine line => s!"mapping on line {line} points at source line 0"

end TexAnchor
