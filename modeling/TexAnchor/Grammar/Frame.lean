import TexAnchor.Grammar.Error
import TexAnchor.Token.Lexer
import TexAnchor.Tree.Basic

/-! # Open constructs

While markup is read, the constructs that are still open form a stack of frames, the innermost on
top, and the reader may be inside raw material (mathematics, a parameter list, a name) whose tokens
are only collected. `State.completed` lists the trees that are finished at any moment. -/

namespace TexAnchor.Grammar

open Text (Coord)

/-- What an open construct is. -/
inductive Level
  | root
  | group
  /-- A parameter in braces of the head below. -/
  | block
  /-- A command that may still take parameter blocks. -/
  | command (name : String)
  /-- An opened environment that may still take parameter blocks. -/
  | opening (name : String)
  /-- The body of an environment. -/
  | body (name : String) (parameterCount : Nat)
deriving DecidableEq, Repr

/-- Commands and opened environments take the parameter blocks next to them. -/
def Level.isHead : Level → Bool
  | command _ | opening _ => true
  | _ => false

/-- An open construct: where it starts, where what has been read of it stops, and its finished
parts, latest first. -/
structure Frame where
  level : Level
  start : Coord
  stop : Coord
  parts : List Tree
deriving Repr

namespace Frame

/-- A construct just opened by a token. -/
def opened (level : Level) (t : Placed) : Frame :=
  ⟨level, t.start, t.stop, []⟩

/-- The construct with one more finished part. -/
def add (f : Frame) (tree : Tree) : Frame :=
  { f with parts := tree :: f.parts, stop := tree.span.stop }

/-- The finished construct as a tree that stops at `stop`. -/
def close (f : Frame) (kind : NodeKind) (stop : Coord) : Tree :=
  .node kind ⟨f.start, stop⟩ f.parts.reverse

end Frame

/-- How the next token is to be read.  Collected tokens are kept latest first. -/
inductive Reading
  /-- Items of the innermost construct. -/
  | content
  /-- Mathematics after its opener. -/
  | math (opener : Placed) (read : List Token)
  /-- A square block after its bracket, at a depth of braces. -/
  | items (opener : Placed) (depth : Nat) (read : List Token)
  /-- A brace must follow the command that takes a name. -/
  | beforeName (mark : EnvironmentMark) (command : Placed)
  /-- The name of an environment after its brace. -/
  | name (mark : EnvironmentMark) (command brace : Placed) (read : List Token)
  /-- The content of a math environment. -/
  | mathEnvironment (command : Placed) (name : List Char) (read : List Token)
deriving Repr

/-- What has been read so far: how to go on, and the stack of open constructs. -/
structure State where
  reading : Reading
  top : Frame
  below : List Frame
deriving Repr

/-- Why reading stopped, and the trees that were finished by then. -/
structure Failure where
  error : ParseError
  completed : List Tree
deriving Repr

namespace State

/-- Nothing has been read of a text that starts at `origin`. -/
def initial (origin : Coord) : State :=
  ⟨.content, ⟨.root, origin, origin, []⟩, []⟩

/-- The finished trees in the order in which they were finished. -/
def completed (s : State) : List Tree :=
  (s.below.reverse ++ [s.top]).flatMap fun f => f.parts.reverse

/-- Reading stops with an error. -/
def fail {α : Type} (s : State) (error : ParseError) : Except Failure α :=
  .error ⟨error, s.completed⟩

/-- A finished part of the innermost construct. -/
def add (s : State) (tree : Tree) : State :=
  { s with reading := .content, top := s.top.add tree }

/-- A construct opens inside the innermost one. -/
def push (s : State) (f : Frame) : State :=
  ⟨.content, f, s.top :: s.below⟩

/-- One more space or line end: it continues the white space before it, if there is some. -/
def addSpace (s : State) (t : Placed) : State :=
  let more := if t.kind = .newline then 1 else 0
  match s.top.parts with
  | .node (.whitespace newlines) span _ :: parts =>
    let run := Tree.leaf (.whitespace (newlines + more)) span.start t.stop
    { s with top := { s.top with parts := run :: parts, stop := t.stop } }
  | _ => s.add (Tree.leaf (.whitespace more) t.start t.stop)

/-- No parameter block follows: a command is finished, and an environment's body begins. -/
def closeHead (s : State) : State :=
  match s.top.level, s.below with
  | .command name, parent :: below =>
    ⟨.content, parent.add (s.top.close (.command name) s.top.stop), below⟩
  | .opening name, _ =>
    { s with top := { s.top with level := .body name s.top.parts.length } }
  | _, _ => s

end State

end TexAnchor.Grammar
