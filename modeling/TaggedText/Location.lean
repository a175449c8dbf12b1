/-!
# Places in a source text

Lines are counted from one, in words of 64 bits, so that zero comes after the last word. A
character is the number of bytes between the beginning of its line and the place. A
text in memory has fewer bytes than a word can count, so these are natural numbers.
-/
namespace TaggedText

/-- A line and a byte within it. -/
structure Place where
  line : UInt64
  character : Nat
  deriving DecidableEq, Repr, Inhabited

/-- A stretch of text from one place to another. -/
structure Location where
  start : Place
  stop : Place
  deriving DecidableEq, Repr, Inhabited

end TaggedText
