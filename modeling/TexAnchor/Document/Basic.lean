import TexAnchor.Arena.View
import TexAnchor.Grammar.Reader
import TexAnchor.Path

/-! # Documents

A `Document` is a source file: its path, its text and the arena of its nodes.  An edit changes the
text and moves every node's range; only `Document.setText` and `Document.reparse` read the text
anew. -/

namespace TexAnchor

open Text (Coord)

namespace Arena

/-- The arena of a text. -/
def parse (text : List Char) : Except ParseError Arena :=
  match Grammar.readFrom .zero text with
  | .ok forest => .ok (ofForest (Coord.zero.advance text) forest)
  | .error failure => .error failure.error

/-- The nodes of a text that starts at `origin`, detached in the arena.

If the text is not markup, the nodes that were finished by then stay in the arena. -/
def addFragment (a : Arena) (origin : Coord) (text : List Char) :
    Arena × Except ParseError (List NodeId) :=
  match Grammar.readFrom origin text with
  | .ok forest =>
    let (grown, ids) := a.addForest forest
    (grown, .ok ids)
  | .error failure => ((a.addForest failure.completed).1, .error failure.error)

end Arena

/-- A source file: path, text and nodes. -/
structure Document where
  path : Path
  text : List Char
  arena : Arena
deriving Repr, Inhabited

/-- Why an edit was refused. -/
inductive EditError
  /-- The edit ends on a line that the file does not have. -/
  | outOfBounds (line lineCount : Nat)
  /-- The node is not in the file's tree. -/
  | unknownNode (id : NodeId)
  /-- The text is not markup. -/
  | parse (error : ParseError)
deriving DecidableEq, Repr

/-- The report of the error. -/
def EditError.message : EditError → String
  | outOfBounds line lineCount => s!"edit ends on line {line} but the file has {lineCount} lines"
  | unknownNode id => s!"node {id.render} is not part of the file's tree"
  | parse error => error.message

namespace Document

/-- The document of a text. -/
def parse (path : Path) (text : List Char) : Except ParseError Document :=
  (Arena.parse text).map fun arena => ⟨path, text, arena⟩

/-- The document with another text, read from scratch. -/
def setText (d : Document) (text : List Char) : Except ParseError Document :=
  parse d.path text

/-- The document with its text read from scratch. -/
def reparse (d : Document) : Except ParseError Document :=
  d.setText d.text

/-- The root's view. -/
def root? (d : Document) : Option View :=
  d.arena.view? Arena.root

/-- The text between the ends of a range. -/
def textIn? (d : Document) (r : Range) : Option (List Char) :=
  Text.between? d.text r.start.coord r.stop.coord

/-- The text that a live node covers. -/
def nodeText? (d : Document) (id : NodeId) : Option (List Char) :=
  (d.arena.get? id).bind fun node => d.textIn? node.range

/-- The text before and after a range. -/
def around (d : Document) (r : Range) : List Char × List Char :=
  (d.text.take (Text.offsetOf .zero r.start.coord d.text),
    d.text.drop (Text.offsetOf .zero r.stop.coord d.text))

/-- The document after an edit: the text changes and every node's range moves with it. -/
def applyEdit (d : Document) (edit : Edit) : Except EditError Document :=
  let line := edit.range.stop.line
  if Text.lineCount d.text ≤ line then .error (.outOfBounds line (Text.lineCount d.text))
  else
    let (before, after) := d.around edit.range
    .ok { d with text := before ++ edit.text ++ after, arena := d.arena.applyEdit edit }

/-- The document without the nodes outside its tree. -/
def freeDetached (d : Document) : Document :=
  { d with arena := d.arena.freeDetached }

end Document

end TexAnchor
