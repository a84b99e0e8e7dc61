import TexAnchor.Document.Basic

/-! # Replacing the source of a node

`Document.replaceNode` puts a new text in the place of a node's text.  If the new text is exactly
one node of the same kind, set off by blanks from what is around it, that node takes the old one's
place in the tree; otherwise the whole text is read again.  If that fails the text keeps the edit
and the tree stays as the edit left it. -/

namespace TexAnchor

/-- How the tree was brought up to date. -/
inductive Replacement
  /-- The node `id` took the old one's place. -/
  | incremental (id : NodeId)
  /-- The whole text was read again. -/
  | reparsed
deriving DecidableEq, Repr

namespace Document

/-- A text between `before` and `after` is set off from both by blanks or the ends of the file. -/
def isIsolated (before after : List Char) : Bool :=
  before.getLast?.all Text.isBlank && after.head?.all Text.isBlank

/-- The arena with the read nodes in the place of the node `id`, if they are one node of its kind. -/
def exchange? (a : Arena) (id : NodeId) (node : Node) (parent : NodeId) (read : List NodeId) :
    Option (Arena × NodeId) :=
  match read with
  | [new] => do
    let newcomer ← a.get? new
    if newcomer.kind.tag = node.kind.tag then
      (a.replaceChild? parent id new).map (·, new)
    else none
  | _ => none

/-- The tree of an edited document brought up to date: `read` are the nodes of the new text, which
stand in the arena and are set off from what is around them if `isolated` is true. -/
def settle (grown : Document) (id : NodeId) (node : Node) (parent : NodeId) (isolated : Bool)
    (read : Except ParseError (List NodeId)) : Document × Except EditError Replacement :=
  let exchanged? := do
    let ids ← read.toOption
    if isolated then exchange? grown.arena id node parent ids else none
  match exchanged? with
  | some (exchanged, new) => ({ grown with arena := exchanged }, .ok (.incremental new))
  | none =>
    match grown.reparse with
    | .ok fresh => (fresh, .ok .reparsed)
    | .error error => (grown, .error (.parse error))

/-- The document with a text in the place of the source of `node`, which is known as `id`. -/
def replaceAttached (d : Document) (id : NodeId) (node : Node) (parent : NodeId) (text : List Char) :
    Document × Except EditError Replacement :=
  match d.applyEdit ⟨node.range, text⟩ with
  | .error error => (d, .error error)
  | .ok edited =>
    let (before, after) := d.around node.range
    let (arena, read) := edited.arena.addFragment node.range.start.coord text
    settle { edited with arena } id node parent (isIsolated before after) read

/-- The document with a text in the place of its root's. -/
def replaceRoot (d : Document) (text : List Char) : Document × Except EditError Replacement :=
  match d.setText text with
  | .ok fresh => (fresh, .ok .reparsed)
  | .error error => (d, .error (.parse error))

/-- The node and its parent, if it is below another node in the tree. -/
def site? (d : Document) (id : NodeId) : Option (Node × NodeId) := do
  let node ← d.arena.get? id
  let parent ← node.parent
  if d.arena.isAttached id then some (node, parent) else none

/-- The document with a text in the place of a node's source, and how its tree was updated. -/
def replaceNode (d : Document) (id : NodeId) (text : List Char) :
    Document × Except EditError Replacement :=
  if id = Arena.root then d.replaceRoot text
  else match d.site? id with
    | some (node, parent) => d.replaceAttached id node parent text
    | none => (d, .error (.unknownNode id))

end Document

end TexAnchor
