import TaggedText.Delimiter

/-!
# Byte offsets and remainders

A place in a text is a remainder, and its offset is the width of what was passed. Cutting at such
an offset gives back the two parts, so that a statement about offsets is one about remainders.
-/
namespace TaggedText

namespace Text

/-- The characters from one offset to another. -/
def slice (text : Text) (start stop : Nat) : Text :=
  takeBytes (stop - start) (dropBytes start text)

/-- An offset at which a character begins or the text ends. -/
def IsBoundary (text : Text) (offset : Nat) : Prop :=
  ∃ before after, text = before ++ after ∧ offset = before.width

@[simp] theorem takeBytes_zero (text : Text) : takeBytes 0 text = [] := by
  cases text <;> rfl

@[simp] theorem dropBytes_zero (text : Text) : dropBytes 0 text = text := by
  cases text <;> rfl

theorem takeBytes_add_utf8Size (c : Char) (n : Nat) (text : Text) :
    takeBytes (c.utf8Size + n) (c :: text) = c :: takeBytes n text := by
  obtain ⟨k, hk⟩ := Nat.exists_eq_succ_of_ne_zero (Nat.ne_of_gt c.utf8Size_pos)
  have hsum : c.utf8Size + n = (k + n) + 1 := by omega
  rw [hsum, takeBytes, show (k + n) + 1 - c.utf8Size = n by omega]

theorem dropBytes_add_utf8Size (c : Char) (n : Nat) (text : Text) :
    dropBytes (c.utf8Size + n) (c :: text) = dropBytes n text := by
  obtain ⟨k, hk⟩ := Nat.exists_eq_succ_of_ne_zero (Nat.ne_of_gt c.utf8Size_pos)
  have hsum : c.utf8Size + n = (k + n) + 1 := by omega
  rw [hsum, dropBytes, show (k + n) + 1 - c.utf8Size = n by omega]

@[simp] theorem takeBytes_width_append (a b : Text) : takeBytes a.width (a ++ b) = a := by
  induction a with
  | nil => exact takeBytes_zero b
  | cons c cs ih => rw [List.cons_append, width_cons, takeBytes_add_utf8Size, ih]

@[simp] theorem dropBytes_width_append (a b : Text) : dropBytes a.width (a ++ b) = b := by
  induction a with
  | nil => exact dropBytes_zero b
  | cons c cs ih => rw [List.cons_append, width_cons, dropBytes_add_utf8Size, ih]

theorem takeBytes_width_add (a b : Text) (n : Nat) :
    takeBytes (a.width + n) (a ++ b) = a ++ takeBytes n b := by
  induction a with
  | nil => rw [width_nil, Nat.zero_add, List.nil_append, List.nil_append]
  | cons c cs ih =>
      rw [List.cons_append, width_cons, Nat.add_assoc, takeBytes_add_utf8Size, ih, List.cons_append]

theorem takeBytes_append_of_le {n : Nat} {a : Text} (h : n ≤ a.width) (b : Text) :
    takeBytes n (a ++ b) = takeBytes n a := by
  induction a generalizing n with
  | nil =>
      obtain rfl := Nat.le_zero.mp h
      rw [takeBytes_zero, takeBytes_zero]
  | cons c cs ih =>
      cases n with
      | zero => rw [takeBytes_zero, takeBytes_zero]
      | succ n =>
          rw [width_cons] at h
          rw [List.cons_append, takeBytes, takeBytes, ih (by omega)]

theorem newlines_append (a b : Text) : (a ++ b).newlines = a.newlines + b.newlines :=
  List.count_append

theorem newlines_takeBytes_le (n : Nat) (text : Text) :
    (text.takeBytes n).newlines ≤ text.newlines := by
  rw [← takeBytes_append_dropBytes n text, newlines_append, takeBytes_append_dropBytes]
  exact Nat.le_add_right ..

theorem takeBytes_prefix_of_le {m n : Nat} (h : m ≤ n) (text : Text) :
    takeBytes m text <+: takeBytes n text := by
  induction text generalizing m n with
  | nil =>
      cases m with
      | zero => exact List.nil_prefix
      | succ m => exact List.nil_prefix
  | cons c cs ih =>
      match m, n with
      | 0, n =>
          rw [takeBytes_zero]
          exact List.nil_prefix
      | m + 1, n + 1 =>
          rw [takeBytes, takeBytes, List.prefix_cons_inj]
          exact ih (Nat.sub_le_sub_right h _)

/-- What stands up to an offset is cut apart at a boundary before it. -/
theorem append_slice {n : Nat} {a : Text} (h : a.width ≤ n) (b : Text) :
    a ++ slice (a ++ b) a.width n = takeBytes n (a ++ b) := by
  rw [slice, dropBytes_width_append, ← takeBytes_width_add, Nat.add_sub_cancel' h]

theorem slice_append (a b c : Text) : slice (a ++ b ++ c) a.width (a ++ b).width = b := by
  have hwidth : (a ++ b).width - a.width = b.width := by
    rw [width_append]
    omega
  rw [slice, hwidth, List.append_assoc, dropBytes_width_append, takeBytes_width_append]

theorem width_toList (text : String) : width text.toList = text.utf8ByteSize := by
  suffices h : ∀ cs : Text, cs.width = (String.ofList cs).utf8ByteSize by
    simpa using h text.toList
  intro cs
  induction cs with
  | nil => rfl
  | cons c cs ih =>
      have hcons : String.ofList (c :: cs) = String.singleton c ++ String.ofList cs := by
        apply String.toList_inj.mp
        simp
      rw [width_cons, ih, hcons, String.utf8ByteSize_append, String.utf8ByteSize_singleton]

theorem eq_nil_of_width_eq_zero {text : Text} (h : text.width = 0) : text = [] :=
  List.eq_nil_of_length_eq_zero (Nat.le_zero.mp (h ▸ length_le_width text))

/-- Of two heads of a text the narrower one is a head of the other. -/
theorem exists_append_of_width_le {a b c d : Text} (h : a ++ b = c ++ d)
    (hw : a.width ≤ c.width) : ∃ e, c = a ++ e ∧ b = e ++ d := by
  rcases List.append_eq_append_iff.mp h with ⟨e, hc, hb⟩ | ⟨e, ha, hd⟩
  · exact ⟨e, hc, hb⟩
  · have he : e = [] := by
      refine eq_nil_of_width_eq_zero ?_
      rw [ha, width_append] at hw
      omega
    subst he
    exact ⟨[], by simpa using ha.symm, by simpa using hd.symm⟩

end Text

namespace Delimiter

variable {passed text body rest : Text}

@[simp] theorem width_opening : opening.width = 2 := by decide

@[simp] theorem width_closing : closing.width = 2 := by decide

/-- Where a body ends is found alike by its offset and by what is left. -/
theorem closingOffset?_append (passed text : Text) :
    closingOffset? (passed ++ text) passed.width =
      (splitBody? text).map fun parts => (passed ++ parts.1).width := by
  simp only [closingOffset?, splitBody?, Text.dropBytes_width_append, Text.takeBytes_width_append,
    Option.map_map, Function.comp_def, Text.width_append]

theorem closingOffset?_of_split (h : splitBody? text = some (body, rest)) :
    closingOffset? (passed ++ text) passed.width = some (passed ++ body).width := by
  rw [closingOffset?_append, h, Option.map_some]

theorem closingOffset?_eq_none (h : splitBody? text = none) :
    closingOffset? (passed ++ text) passed.width = none := by
  rw [closingOffset?_append, h, Option.map_none]

end Delimiter

end TaggedText
