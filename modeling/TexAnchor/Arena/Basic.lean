import TexAnchor.Position.Edit
import TexAnchor.Tree.Basic

/-! # Arenas

An `Arena` gives identities to the nodes of a document.  A node lives in a slot and is known by the
slot's index; parents list their children and children know their parent.  Slot zero holds the root
and is never freed.

* `Arena.alloc` — a new node in the slot freed last, or in a new slot if none is free;
* `Arena.addForest` — the nodes of read trees, children before parents;
* `Arena.replaceChild?` — another node in the place of a child, which becomes detached;
* `Arena.freeDetached` — the slots of all nodes outside the tree are freed.

The tree below a node is walked with a bound on its depth: no path of a tree visits more nodes than
there are slots. -/

namespace TexAnchor

/-- The identity of a node: the index of its slot. -/
structure NodeId where
  index : Nat
deriving DecidableEq, Repr, Inhabited

/-- The printed form of an identity. -/
def NodeId.render (id : NodeId) : String := s!"#{id.index}"

/-- A node of a document. -/
structure Node where
  kind : NodeKind
  range : Range
  children : List NodeId
  parent : Option NodeId
deriving DecidableEq, Repr, Inhabited

/-- The nodes of a document, and the empty slots in the order in which they will be used again. -/
structure Arena where
  slots : Array (Option Node)
  free : List NodeId
deriving DecidableEq, Repr, Inhabited

namespace Arena

/-- The root's identity. -/
def root : NodeId := ⟨0⟩

/-- An arena with a root and nothing else. -/
def rooted (range : Range) : Arena :=
  ⟨#[some ⟨.latex, range, [], none⟩], []⟩

/-- The live node with an identity. -/
def get? (a : Arena) (id : NodeId) : Option Node :=
  a.slots[id.index]?.join

/-- A change of one node; an identity without live node changes nothing. -/
def update (a : Arena) (id : NodeId) (change : Node → Node) : Arena :=
  { a with slots := a.slots.modify id.index (Option.map change) }

/-- The number of live nodes, in the tree or not. -/
def liveCount (a : Arena) : Nat := a.slots.size - a.free.length

/-- The number of slots, live or free. -/
def capacity (a : Arena) : Nat := a.slots.size

/-! ### Growing -/

/-- The nodes `ids` get a new parent. -/
def adopt (a : Arena) (parent : NodeId) (ids : List NodeId) : Arena :=
  ids.foldl (fun a id => a.update id fun node => { node with parent := some parent }) a

/-- A node put into an empty slot; a new slot is made only if no slot is free. -/
def place (a : Arena) (node : Node) : Arena × NodeId :=
  match a.free with
  | id :: free => (⟨a.slots.setIfInBounds id.index (some node), free⟩, id)
  | [] => (⟨a.slots.push (some node), []⟩, ⟨a.slots.size⟩)

/-- A new detached node, which becomes the parent of `children`. -/
def alloc (a : Arena) (kind : NodeKind) (range : Range) (children : List NodeId) : Arena × NodeId :=
  let (grown, id) := a.place ⟨kind, range, children, none⟩
  (grown.adopt id children, id)

/-- The range of a span whose ends have not drifted. -/
def rangeOf (span : Span) : Range :=
  ⟨.ofCoord span.start, .ofCoord span.stop⟩

mutual

/-- The nodes of a tree, allocated children first; the top node is detached. -/
def addTree (a : Arena) : Tree → Arena × NodeId
  | .node kind span children =>
    let (grown, ids) := a.addForest children
    grown.alloc kind (rangeOf span) ids

/-- The nodes of a list of trees, allocated in order; the top nodes are detached. -/
def addForest (a : Arena) : List Tree → Arena × List NodeId
  | [] => (a, [])
  | tree :: forest =>
    let (grown, id) := a.addTree tree
    let (full, ids) := grown.addForest forest
    (full, id :: ids)

end

/-- Detached nodes become the last children of the root. -/
def attachToRoot (a : Arena) (ids : List NodeId) : Arena :=
  (a.adopt root ids).update root fun node => { node with children := node.children ++ ids }

/-- The arena of a document that consists of the given trees and stops at `stop`. -/
def ofForest (stop : Text.Coord) (forest : List Tree) : Arena :=
  let (grown, ids) := (rooted (rangeOf ⟨.zero, stop⟩)).addForest forest
  grown.attachToRoot ids

/-! ### The tree below a node -/

/-- The node and all nodes below it to a depth, parents before children. -/
def descendantsWithin (a : Arena) : Nat → NodeId → List NodeId
  | 0, _ => []
  | depth + 1, id =>
    match a.get? id with
    | none => []
    | some node => id :: node.children.flatMap (a.descendantsWithin depth)

/-- The node and all nodes below it, parents before children; nothing if it is not live. -/
def descendants (a : Arena) (id : NodeId) : List NodeId :=
  a.descendantsWithin a.capacity id

/-- Whether a number of steps from parent to parent leads from the node to the root. -/
def reachesRoot (a : Arena) : Nat → NodeId → Bool
  | 0, id => id == root
  | steps + 1, id =>
    id == root || match (a.get? id).bind Node.parent with
      | some parent => a.reachesRoot steps parent
      | none => false

/-- Whether the node belongs to the tree below the root. -/
def isAttached (a : Arena) (id : NodeId) : Bool :=
  a.reachesRoot a.capacity id

/-! ### Changing -/

/-- The detached node `new` in the place of the child `current` of `parent`, which becomes detached;
none if `current` is no child of `parent`, or if `new` is not detached or would own its parent. -/
def replaceChild? (a : Arena) (parent current new : NodeId) : Option Arena :=
  let isChild := (a.get? parent).any fun node => node.children.contains current
  let isFree := (a.get? new).any fun node => node.parent.isNone
  if isChild && isFree && new != root && !(a.descendants new).contains parent then
    let listed := a.update parent fun node =>
      { node with children := node.children.replace current new }
    let released := listed.update current fun node => { node with parent := none }
    some (released.update new fun node => { node with parent := some parent })
  else none

/-- The live nodes outside the tree below the root, in the order of their slots. -/
def detached (a : Arena) : List NodeId :=
  let kept := a.descendants root
  ((List.range a.capacity).map NodeId.mk).filter fun id => (a.get? id).isSome && !kept.contains id

/-- The arena without the nodes outside the tree; the slot with the highest index is used first. -/
def freeDetached (a : Arena) : Arena :=
  let gone := a.detached
  ⟨gone.foldl (fun slots id => slots.setIfInBounds id.index none) a.slots, gone.reverse ++ a.free⟩

/-- Every live node's range after an edit. -/
def applyEdit (a : Arena) (edit : Edit) : Arena :=
  { a with slots := a.slots.map (Option.map fun node => { node with range := edit.mapRange node.range }) }

end Arena

end TexAnchor
