/-! # Tables of code points

A character class is given by an ascending list of closed ranges of code points.

* `inRanges` — whether a code point lies in a range of the table;
* `isAscending` — the check that a table is one, with a gap after each range. -/

namespace TexAnchor.Text

/-- The code point `n` lies in one of the ascending closed ranges. -/
def inRanges : List (Nat × Nat) → Nat → Bool
  | [], _ => false
  | (low, high) :: ranges, n => if n < low then false else n ≤ high || inRanges ranges n

/-- Every range is non-empty, and there is a gap between a range and the next. -/
def isAscending : List (Nat × Nat) → Bool
  | [] => true
  | [r] => r.1 ≤ r.2
  | r :: s :: ranges => r.1 ≤ r.2 && r.2 + 1 < s.1 && isAscending (s :: ranges)

end TexAnchor.Text
