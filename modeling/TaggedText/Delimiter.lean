import TaggedText.Text

/-!
# The delimiters of a directive

A directive stands between an opening and a closing delimiter. The closing one is
looked for from left to right: inside a double-quoted string it does not count,
and a backslash inside a string takes away the meaning of the next character.
Outside a string a backslash has no meaning of its own.

The search keeps one of three modes and never looks back, so it is a fold that may
stop early. A text that ends inside a string has no closing delimiter.
-/
namespace TaggedText.Delimiter

/-- The two characters that open a directive. -/
def opening : Text := ['{', '%']

/-- The two characters that close a directive. -/
def closing : Text := ['%', '}']

/-- Where the search stands: between strings, inside one, or after a backslash inside one. -/
inductive Mode where
  | outside
  | quoted
  | escaped
  deriving DecidableEq, Repr

namespace Mode

/-- The mode after one more character. -/
def step : Mode → Char → Mode
  | outside, c => if c = '"' then quoted else outside
  | quoted, c => if c = '"' then outside else if c = '\\' then escaped else quoted
  | escaped, _ => quoted

end Mode

/-- Whether the closing delimiter stands at the head of the text. -/
def closes : Text → Bool
  | '%' :: '}' :: _ => true
  | _ => false

theorem closes_iff (text : Text) : closes text ↔ ∃ rest, text = closing ++ rest := by
  unfold closes closing
  split <;> simp_all

/-- Number of characters before the closing delimiter, counted on from `n`. -/
def closeIndexFrom : Mode → Nat → Text → Option Nat
  | _, _, [] => none
  | mode, n, c :: cs =>
      if mode = .outside ∧ closes (c :: cs) then some n
      else closeIndexFrom (mode.step c) (n + 1) cs

/-- Number of characters before the closing delimiter. -/
def closeIndex? (text : Text) : Option Nat :=
  closeIndexFrom .outside 0 text

theorem closeIndexFrom_drop {mode : Mode} {n k : Nat} {text : Text}
    (h : closeIndexFrom mode n text = some k) :
    n ≤ k ∧ ∃ rest, text.drop (k - n) = closing ++ rest := by
  induction text generalizing mode n with
  | nil => simp [closeIndexFrom] at h
  | cons c cs ih =>
      unfold closeIndexFrom at h
      split at h
      next hc =>
        cases h
        obtain ⟨rest, hr⟩ := (closes_iff _).1 hc.2
        exact ⟨Nat.le_refl _, rest, by simpa using hr⟩
      next =>
        obtain ⟨hle, rest, hr⟩ := ih h
        refine ⟨by omega, rest, ?_⟩
        rw [show k - n = (k - (n + 1)) + 1 by omega, List.drop_succ_cons, hr]

/-- What stands before the closing delimiter, and what follows it. -/
def splitBody? (text : Text) : Option (Text × Text) :=
  (closeIndex? text).map fun n => (text.take n, text.drop (n + closing.length))

theorem eq_of_splitBody? {text body rest : Text} (h : splitBody? text = some (body, rest)) :
    text = body ++ closing ++ rest := by
  obtain ⟨n, hn, hb⟩ := Option.map_eq_some_iff.1 h
  obtain ⟨rfl, rfl⟩ := Prod.mk.inj hb
  obtain ⟨_, rest, hr⟩ := closeIndexFrom_drop hn
  rw [Nat.sub_zero] at hr
  rw [← List.drop_drop, hr, List.drop_left, List.append_assoc, ← hr, List.take_append_drop]

theorem length_lt_of_splitBody? {text body rest : Text}
    (h : splitBody? text = some (body, rest)) : rest.length < text.length := by
  rw [eq_of_splitBody? h]
  simp [closing]
  omega

/-- Byte offset of the closing delimiter that ends a body beginning at byte `start`. -/
def closingOffset? (text : Text) (start : Nat) : Option Nat :=
  let body := text.dropBytes start
  (closeIndex? body).map fun n => (text.takeBytes start).width + Text.width (body.take n)

end TaggedText.Delimiter
