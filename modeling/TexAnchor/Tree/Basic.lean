import TexAnchor.Tree.Kind
import TexAnchor.Text.Coord

/-! # Trees

A `Tree` is a piece of markup as it was read: its kind, where it starts and stops, and its parts.
Trees carry coordinates; identities are given to their nodes when they enter an arena. -/

namespace TexAnchor

open Text (Coord)

/-- The stretch of a text between two coordinates. -/
structure Span where
  start : Coord
  stop : Coord
deriving DecidableEq, Repr, Inhabited

/-- A node of read markup with its parts in order. -/
inductive Tree
  | node (kind : NodeKind) (span : Span) (children : List Tree)
deriving Repr, Inhabited

namespace Tree

/-- What the tree's top node is. -/
def kind : Tree → NodeKind
  | node kind _ _ => kind

/-- Where the tree starts and stops. -/
def span : Tree → Span
  | node _ span _ => span

/-- The parts of the tree. -/
def children : Tree → List Tree
  | node _ _ children => children

/-- A tree without parts. -/
def leaf (kind : NodeKind) (start stop : Coord) : Tree :=
  node kind ⟨start, stop⟩ []

mutual

/-- The number of nodes of a tree. -/
def size : Tree → Nat
  | node _ _ children => forestSize children + 1

/-- The number of nodes of a list of trees. -/
def forestSize : List Tree → Nat
  | [] => 0
  | t :: forest => t.size + forestSize forest

end

end Tree

end TexAnchor
