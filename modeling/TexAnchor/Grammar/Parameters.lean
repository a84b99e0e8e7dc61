import TexAnchor.Text.Blank
import TexAnchor.Tree.Basic

/-! # Lists of parameters

The content of a square block is a list of items.  Commas separate items and the first equals sign
of an item separates a key from a value, both only outside braces; items are trimmed, and blank ones
do not count. -/

namespace TexAnchor.Parameters

open Text (Coord)

/-- The brace depth after one more character; a closing brace without a partner leaves it at zero. -/
def depthAfter (depth : Nat) (c : Char) : Nat :=
  if c = '\x7b' then depth + 1 else if c = '\x7d' then depth - 1 else depth

/-- The text before and after the first `mark` outside braces. -/
def cutAt? (mark : Char) (depth : Nat) : List Char → Option (List Char × List Char)
  | [] => none
  | c :: text =>
    if c = mark ∧ depth = 0 then some ([], text)
    else (cutAt? mark (depthAfter depth c) text).map fun (before, after) => (c :: before, after)

/-- The stretches between the commas outside braces. -/
def segments (depth : Nat) : List Char → List (List Char)
  | [] => [[]]
  | c :: text =>
    if c = ',' ∧ depth = 0 then [] :: segments depth text
    else match segments (depthAfter depth c) text with
      | [] => [[c]]
      | segment :: later => (c :: segment) :: later

/-- What a trimmed item is: a value, or a key and its value. -/
def kindOf (item : List Char) : NodeKind :=
  match cutAt? '=' 0 item with
  | some (key, value) =>
    .assignment (String.ofList (Text.trim key)) (String.ofList (Text.trim value))
  | none => .parameter (String.ofList item)

/-- The items of consecutive segments, the first of which starts at `here`. -/
def placeItems (here : Coord) : List (List Char) → List Tree
  | [] => []
  | segment :: later =>
    let item := Text.trim segment
    let start := here.advance (segment.takeWhile Text.isBlank)
    let others := placeItems ((here.advance segment).next ',') later
    if item.isEmpty then others
    else Tree.leaf (kindOf item) start (start.advance item) :: others

/-- The items of a text that starts at `here`. -/
def items (here : Coord) (text : List Char) : List Tree :=
  placeItems here (segments 0 text)

end TexAnchor.Parameters
