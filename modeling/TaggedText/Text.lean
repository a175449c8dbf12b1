/-!
# Text and its measure in bytes

A text is the list of its characters. Scanners walk the list and hand on what is
left of it, so a place in a document is a remainder. Offsets, columns and spans
that leave the library count bytes of the UTF-8 form, and `width` is the one
bridge between the two: the offset of a remainder is the width of the whole less
the width of what is left.

Blanks are the characters of the Unicode property White_Space, which is more than
the ASCII blanks. A line ends at a line feed and nowhere else.
-/
namespace TaggedText

/-- Characters in reading order. -/
abbrev Text := List Char

namespace Text

/-- Bytes of the UTF-8 form, counted on from `n`. -/
def widthFrom (n : Nat) (text : Text) : Nat :=
  text.foldl (fun m c => m + c.utf8Size) n

/-- Bytes of the UTF-8 form. -/
def width (text : Text) : Nat :=
  widthFrom 0 text

theorem widthFrom_eq (n : Nat) (text : Text) : widthFrom n text = n + width text := by
  unfold width
  induction text generalizing n with
  | nil => rfl
  | cons c cs ih =>
      simp only [widthFrom, List.foldl_cons] at ih ⊢
      rw [ih, ih (0 + c.utf8Size)]
      omega

@[simp] theorem width_nil : width [] = 0 := rfl

@[simp] theorem width_cons (c : Char) (cs : Text) :
    width (c :: cs) = c.utf8Size + width cs := by
  change widthFrom (0 + c.utf8Size) cs = _
  rw [widthFrom_eq, Nat.zero_add]

@[simp] theorem width_append (a b : Text) : width (a ++ b) = width a + width b := by
  induction a with
  | nil => simp
  | cons c cs ih => simp only [List.cons_append, width_cons, ih, Nat.add_assoc]

theorem length_le_width (text : Text) : text.length ≤ width text := by
  induction text with
  | nil => simp
  | cons c cs ih =>
      have := c.utf8Size_pos
      simp only [List.length_cons, width_cons]
      omega

/-- The characters that begin within the first `n` bytes. -/
def takeBytes : Nat → Text → Text
  | _, [] => []
  | 0, _ => []
  | n + 1, c :: cs => c :: takeBytes (n + 1 - c.utf8Size) cs

/-- What follows `takeBytes n`: a cut inside a character falls after it. -/
def dropBytes : Nat → Text → Text
  | _, [] => []
  | 0, cs => cs
  | n + 1, c :: cs => dropBytes (n + 1 - c.utf8Size) cs

@[simp] theorem takeBytes_append_dropBytes (n : Nat) (text : Text) :
    takeBytes n text ++ dropBytes n text = text := by
  induction text generalizing n with
  | nil => cases n <;> rfl
  | cons c cs ih =>
      cases n with
      | zero => rfl
      | succ n => simp [takeBytes, dropBytes, ih]

/-- The Unicode property White_Space. -/
def isBlank (c : Char) : Bool :=
  let n := c.toNat
  (0x09 ≤ n && n ≤ 0x0D) || n == 0x20 || n == 0x85 || n == 0xA0 || n == 0x1680
    || (0x2000 ≤ n && n ≤ 0x200A) || n == 0x2028 || n == 0x2029 || n == 0x202F
    || n == 0x205F || n == 0x3000

theorem isBlank_of_isWhitespace {c : Char} (h : c.isWhitespace) : isBlank c := by
  simp only [Char.isWhitespace, Bool.or_eq_true, decide_eq_true_eq] at h
  rcases h with ((rfl | rfl) | rfl) | rfl <;> decide

/-- What is left after the leading blanks. -/
def skipBlanks (text : Text) : Text :=
  text.dropWhile isBlank

/-- Neither leading nor trailing blanks. -/
def trim (text : Text) : Text :=
  ((skipBlanks text).reverse.dropWhile isBlank).reverse

theorem length_skipBlanks_le (text : Text) : (skipBlanks text).length ≤ text.length := by
  have h := congrArg List.length (List.takeWhile_append_dropWhile (p := isBlank) (l := text))
  simp only [List.length_append] at h
  unfold skipBlanks
  omega

/-- Line feeds in the text. -/
def newlines (text : Text) : Nat :=
  text.count '\n'

/-- What stands after the last line feed. -/
def lastLine (text : Text) : Text :=
  (text.reverse.takeWhile (· ≠ '\n')).reverse

/-- What stands before the last line feed; nothing where there is none. -/
def beforeLastLine (text : Text) : Text :=
  ((text.reverse.dropWhile (· ≠ '\n')).drop 1).reverse

/-- Whether only blanks stand before the next line feed or the end. -/
def restOfLineBlank : Text → Bool
  | [] => true
  | c :: cs => c == '\n' || (isBlank c && restOfLineBlank cs)

theorem restOfLineBlank_iff (text : Text) :
    restOfLineBlank text ↔ ∀ c ∈ text.takeWhile (· ≠ '\n'), isBlank c := by
  induction text with
  | nil => simp [restOfLineBlank]
  | cons c cs ih =>
      by_cases h : c = '\n' <;> simp [restOfLineBlank, h, ih]

end Text

end TaggedText
