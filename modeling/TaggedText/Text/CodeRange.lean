/-!
# Ranges of code points

Properties of characters are held as ascending lists of closed ranges. The lookup
walks the list and stops at the first range that begins past the code point, so a
small code point costs a few steps whatever the length of the table.
-/
namespace TaggedText.Text

/-- The first and the last code point of a range. -/
abbrev CodeRange := Nat × Nat

namespace CodeRange

/-- Whether an ascending list of ranges holds the code point. -/
def covers : List CodeRange → Nat → Bool
  | [], _ => false
  | (low, high) :: ranges, n =>
      if n < low then false else if n ≤ high then true else covers ranges n

end CodeRange

end TaggedText.Text
