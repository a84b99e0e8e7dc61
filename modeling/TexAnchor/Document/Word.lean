import TexAnchor.Document.Replace
import TexAnchor.Position.Word

/-! # Documents on words

What becomes of a document when its coordinates are words: `Document.applyEdit?` and
`Document.replaceNode?` are edits and replacements, `Document.readRange?` looks up the text of a range.
There is no result if the arithmetic overflows, or if the ends of an edit are looked up in the wrong
order.

The text that is read from scratch starts at zero, and the places of a text that is in memory fit a word;
only a fragment may start at any place, and what it is given there are words
(`Arena.addFragment?`). -/

namespace TexAnchor

open Text (Coord)

/-- The coordinate at which a position is read that was recorded at this one. -/
def Text.Coord.asRead (c : Coord) : Coord :=
  ⟨(Word.asSigned c.line).toNat, (Word.asSigned c.column).toNat⟩

/-- The span with its ends in the order in which they are read. -/
def Span.asRead (s : Span) : Span :=
  if s.stop.asRead < s.start.asRead then ⟨s.stop, s.start⟩ else s

namespace Tree

mutual

/-- The tree with other spans. -/
def respan (f : Span → Span) : Tree → Tree
  | node kind span children => node kind (f span) (respanForest f children)

/-- The trees with other spans. -/
def respanForest (f : Span → Span) : List Tree → List Tree
  | [] => []
  | t :: forest => t.respan f :: respanForest f forest

end

end Tree

namespace Arena

/-- `Arena.addFragment` on words. -/
def addFragment? (a : Arena) (origin : Position) (text : List Char) :
    Option (Arena × Except ParseError (List NodeId)) := do
  let here ← origin.coord?
  match Grammar.readFrom here text with
  | .ok forest =>
    let (grown, ids) := a.addForest (Tree.respanForest Span.asRead forest)
    return (grown, .ok ids)
  | .error failure =>
    let (grown, _) := a.addForest (Tree.respanForest Span.asRead failure.completed)
    return (grown, .error (failure.error.map Coord.asRead))

/-- `Arena.applyEdit` on words. -/
def applyEdit? (a : Arena) (e : Edit) : Option Arena := do
  let slots ← a.slots.mapM fun slot => slot.mapM fun node => do
    return { node with range := ← e.mapRange? node.range }
  return { a with slots }

end Arena

namespace Document

/-- The offset in characters at which a position is looked up. -/
def offsetOf? (d : Document) (p : Position) : Option Nat := do
  return Text.offsetOf .zero (← p.coord?) d.text

/-- `Document.textIn?` on words. -/
def readRange? (d : Document) (r : Range) : Option (Option (List Char)) := do
  return Text.between? d.text (← r.start.coord?) (← r.stop.coord?)

/-- `Document.nodeText?` on words. -/
def readNode? (d : Document) (id : NodeId) : Option (Option (List Char)) :=
  match d.arena.get? id with
  | none => some none
  | some node => d.readRange? node.range

/-- `Document.applyEdit` on words. -/
def applyEdit? (d : Document) (e : Edit) : Option (Except EditError Document) := do
  let line ← e.range.stop.line?
  if Text.lineCount d.text ≤ line then return .error (.outOfBounds line (Text.lineCount d.text))
  else
    let start ← d.offsetOf? e.range.start
    let stop ← d.offsetOf? e.range.stop
    if stop < start then none
    else
      let text := d.text.take start ++ e.text ++ d.text.drop stop
      return .ok { d with text, arena := ← d.arena.applyEdit? e }

/-- `Document.replaceAttached` on words. -/
def replaceAttached? (d : Document) (id : NodeId) (node : Node) (parent : NodeId) (text : List Char) :
    Option (Document × Except EditError Replacement) := do
  match ← d.applyEdit? ⟨node.range, text⟩ with
  | .error error => return (d, .error error)
  | .ok edited =>
    let before := d.text.take (← d.offsetOf? node.range.start)
    let after := d.text.drop (← d.offsetOf? node.range.stop)
    let (arena, read) ← edited.arena.addFragment? (← node.range.start.rebased?) text
    return settle { edited with arena } id node parent (isIsolated before after) read

/-- `Document.replaceNode` on words. -/
def replaceNode? (d : Document) (id : NodeId) (text : List Char) :
    Option (Document × Except EditError Replacement) :=
  if id = Arena.root then some (d.replaceRoot text)
  else match d.site? id with
    | some (node, parent) => d.replaceAttached? id node parent text
    | none => some (d, .error (.unknownNode id))

end Document

end TexAnchor
