import TexAnchor.Text.Ranges

/-! # Blank characters

`isBlank` is the property White_Space, and `trim` cuts blank characters off both ends of a text.
A text is a `List Char` while it is being read or cut. -/

namespace TexAnchor.Text

/-- The code points with the property White_Space. -/
def blankRanges : List (Nat × Nat) := [
  (0x9, 0xD), (0x20, 0x20), (0x85, 0x85), (0xA0, 0xA0), (0x1680, 0x1680), (0x2000, 0x200A),
  (0x2028, 0x2029), (0x202F, 0x202F), (0x205F, 0x205F), (0x3000, 0x3000)]

example : isAscending blankRanges = true := by decide

/-- A character that leaves no ink: space, tab, line and page breaks, and the typographic spaces. -/
def isBlank (c : Char) : Bool :=
  inRanges blankRanges c.toNat

/-- The text without its leading blanks. -/
def trimStart (text : List Char) : List Char :=
  text.dropWhile isBlank

/-- The text without its trailing blanks. -/
def trimEnd (text : List Char) : List Char :=
  (text.reverse.dropWhile isBlank).reverse

/-- The text without blanks at either end. -/
def trim (text : List Char) : List Char :=
  trimEnd (trimStart text)

/-- A text of blanks only. -/
def isBlankText (text : List Char) : Bool :=
  text.all isBlank

theorem takeWhile_append_trimStart (text : List Char) :
    text.takeWhile isBlank ++ trimStart text = text :=
  List.takeWhile_append_dropWhile

end TexAnchor.Text
