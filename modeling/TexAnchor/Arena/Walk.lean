import TexAnchor.Arena.View

/-! # Walking a tree

A walk visits a node and the nodes below it, parents before children, and takes each node to the
visitor's method for its kind.  It keeps an agenda of nodes to visit with their depth below the
start; with a greatest depth, children are only put on the agenda above it.

* `walk` — visits every node; the visitor's methods may act in any monad, so they may suspend;
* `walkUntil` — asks before each visit whether to stop, and tells whether the walk was finished. -/

namespace TexAnchor

/-- One method for each kind of node. -/
structure Visitor (m : Type → Type) where
  visitLatex : View → m Unit
  visitText : View → String → m Unit
  visitWhitespace : View → Nat → m Unit
  visitComment : View → String → m Unit
  visitSpecialSymbol : View → String → m Unit
  visitCommand : View → String → m Unit
  visitEnvironment : View → String → Nat → m Unit
  visitGroup : View → m Unit
  visitMath : View → MathDelimiter → String → m Unit
  visitCurlyBlock : View → m Unit
  visitSquareBlock : View → m Unit
  visitParameterList : View → m Unit
  visitParameter : View → String → m Unit
  visitAssignment : View → String → String → m Unit

namespace Visitor

variable {m : Type → Type}

/-- The visitor that treats all kinds alike, apart from being told the kind. -/
def uniform (visit : KindTag → View → m Unit) : Visitor m where
  visitLatex := visit .latex
  visitText v _ := visit .text v
  visitWhitespace v _ := visit .whitespace v
  visitComment v _ := visit .comment v
  visitSpecialSymbol v _ := visit .specialSymbol v
  visitCommand v _ := visit .command v
  visitEnvironment v _ _ := visit .environment v
  visitGroup := visit .group
  visitMath v _ _ := visit .math v
  visitCurlyBlock := visit .curlyBlock
  visitSquareBlock := visit .squareBlock
  visitParameterList := visit .parameterList
  visitParameter v _ := visit .parameter v
  visitAssignment v _ _ := visit .assignment v

/-- The node is taken to the method for its kind. -/
def accept (visitor : Visitor m) (v : View) : m Unit :=
  match v.kind with
  | .latex => visitor.visitLatex v
  | .text content => visitor.visitText v content
  | .whitespace newlines => visitor.visitWhitespace v newlines
  | .comment content => visitor.visitComment v content
  | .specialSymbol symbol => visitor.visitSpecialSymbol v symbol
  | .command name => visitor.visitCommand v name
  | .environment name count => visitor.visitEnvironment v name count
  | .group => visitor.visitGroup v
  | .math delimiter content => visitor.visitMath v delimiter content
  | .curlyBlock => visitor.visitCurlyBlock v
  | .squareBlock => visitor.visitSquareBlock v
  | .parameterList => visitor.visitParameterList v
  | .parameter value => visitor.visitParameter v value
  | .assignment key value => visitor.visitAssignment v key value

end Visitor

namespace Walk

variable {m : Type → Type} [Monad m]

/-- Whether the children of a node at `depth` are visited. -/
def descends (maxDepth : Option Nat) (depth : Nat) : Bool :=
  maxDepth.all (depth < ·)

/-- What is to be visited below a node. -/
def below (maxDepth : Option Nat) (v : View) (depth : Nat) : List (View × Nat) :=
  if descends maxDepth depth then v.children.map (·, depth + 1) else []

/-- A number of visits from an agenda. -/
def visitAll (visitor : Visitor m) (maxDepth : Option Nat) : Nat → List (View × Nat) → m Unit
  | _, [] => pure ()
  | 0, _ => pure ()
  | visits + 1, (v, depth) :: agenda => do
    visitor.accept v
    visitAll visitor maxDepth visits (below maxDepth v depth ++ agenda)

/-- A number of visits from an agenda, each unless the walk is stopped before it; the answer is
whether it was not stopped. -/
def visitAgenda (visitor : Visitor m) (maxDepth : Option Nat) (stopped : m Bool) :
    Nat → List (View × Nat) → m Bool
  | _, [] => pure true
  | 0, _ => pure true
  | visits + 1, (v, depth) :: agenda => do
    if ← stopped then pure false
    else
      visitor.accept v
      visitAgenda visitor maxDepth stopped visits (below maxDepth v depth ++ agenda)

end Walk

namespace View

variable {m : Type → Type} [Monad m]

/-- Visits the node and the nodes below it. -/
def walk (start : View) (visitor : Visitor m) (maxDepth : Option Nat) : m Unit :=
  Walk.visitAll visitor maxDepth start.arena.capacity [(start, 0)]

/-- Visits the node and the nodes below it unless `stopped` says so before a visit; the answer is
whether no visit was left out. -/
def walkUntil (start : View) (visitor : Visitor m) (maxDepth : Option Nat) (stopped : m Bool) :
    m Bool :=
  Walk.visitAgenda visitor maxDepth stopped start.arena.capacity [(start, 0)]

end View

end TexAnchor
