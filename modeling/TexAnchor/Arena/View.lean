import TexAnchor.Arena.Basic

/-! # Views of nodes

A `View` is a live node together with its identity and its arena, so that its surroundings can be
asked for: children, parameter blocks, the body of an environment, the plain text. -/

namespace TexAnchor

/-- A live node seen in its arena. -/
structure View where
  arena : Arena
  id : NodeId
  node : Node
deriving Repr, Inhabited

/-- The view of a live node. -/
def Arena.view? (a : Arena) (id : NodeId) : Option View :=
  (a.get? id).map (⟨a, id, ·⟩)

namespace View

/-- What the node is. -/
def kind (v : View) : NodeKind := v.node.kind

/-- Where the node is. -/
def range (v : View) : Range := v.node.range

/-- The live children in order. -/
def children (v : View) : List View :=
  v.node.children.filterMap v.arena.view?

/-- The parent, if the node has one. -/
def parent? (v : View) : Option View :=
  v.node.parent.bind v.arena.view?

/-- The children that are neither white space nor comments. -/
def significantChildren (v : View) : List View :=
  v.children.filter (!·.kind.isTrivia)

/-- The node and all nodes below it, parents before children. -/
def descendants (v : View) : List View :=
  (v.arena.descendants v.id).filterMap v.arena.view?

/-- The parameter blocks of a command or an environment. -/
def parameterBlocks (v : View) : List View :=
  match v.kind with
  | .command _ => v.children
  | .environment _ count => v.children.take count
  | _ => []

/-- The parameter blocks in braces. -/
def curlyBlocks (v : View) : List View :=
  v.parameterBlocks.filter (·.kind.tag == .curlyBlock)

/-- The body of an environment: the children after its parameter blocks. -/
def body (v : View) : List View :=
  match v.kind with
  | .environment _ count => v.children.drop count
  | _ => []

/-- What a single node adds to the plain text. -/
def ownText (v : View) : String :=
  match v.kind with
  | .text content => content
  | .whitespace _ => " "
  | .specialSymbol symbol => symbol
  | .math _ content => content
  | _ => ""

/-- The text of the node and the nodes below it, without commands and delimiters. -/
def plainText (v : View) : String :=
  String.join (v.descendants.map ownText)

/-- A short description for reports: identity, kind and range. -/
def describe (v : View) : String :=
  s!"{v.id.render} {v.kind.describe} [{v.range.render}]"

end View

end TexAnchor
