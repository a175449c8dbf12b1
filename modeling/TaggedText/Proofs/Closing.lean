import TaggedText.Proofs.Offsets

/-!
# The closing delimiter among the bytes

The search for the closing delimiter goes from character to character. Its meaning is told here in
bytes, without modes: what stands between the beginning and the delimiter is a sequence of whole
string literals and of single bytes that are no quote and at which no delimiter begins.

The two are joined by the search as it runs over bytes. A character of more than one byte has no byte
that could be taken for a quote, a backslash or a delimiter, so its bytes together do what the
character does, and a beginning inside of it passes what is left of it.
-/
namespace TaggedText

namespace Text

/-- The bytes of the UTF-8 form. -/
def bytes (text : Text) : List UInt8 :=
  text.flatMap String.utf8EncodeChar

/-- Bytes of characters beyond ASCII. -/
def High (bytes : List UInt8) : Prop :=
  ∀ b ∈ bytes, 0x80 ≤ b

variable {c : Char}

@[simp] theorem bytes_nil : bytes [] = [] := rfl

@[simp] theorem bytes_cons (c : Char) (cs : Text) :
    bytes (c :: cs) = String.utf8EncodeChar c ++ cs.bytes := rfl

@[simp] theorem bytes_append (a b : Text) : bytes (a ++ b) = a.bytes ++ b.bytes :=
  List.flatMap_append

@[simp] theorem length_bytes (text : Text) : text.bytes.length = text.width := by
  induction text with
  | nil => rfl
  | cons c cs ih => rw [bytes_cons, List.length_append, String.length_utf8EncodeChar, ih, width_cons]

theorem bytes_toList (document : String) :
    bytes document.toList = document.toByteArray.data.toList := by
  rw [← String.utf8Encode_toList, List.utf8Encode, List.toList_data_toByteArray, bytes]

/-- The bits of a character behind a marker of the upper half. -/
theorem le_ofNat_mod_add {bits marker : Nat} (n : Nat) (hbits : 0 < bits) (hmarker : 0x80 ≤ marker)
    (hsum : bits + marker ≤ 0x100) : 0x80 ≤ UInt8.ofNat (n % bits + marker) := by
  have hlt := Nat.mod_lt n hbits
  have hbyte : n % bits + marker < 2 ^ 8 := by omega
  rw [UInt8.le_iff_toNat_le, UInt8.toNat_ofNat', Nat.mod_eq_of_lt hbyte]
  exact Nat.le_trans hmarker (Nat.le_add_left ..)

theorem high_utf8EncodeChar (hc : c.utf8Size ≠ 1) : High (String.utf8EncodeChar c) := by
  have hlow : ¬ c.val.toNat ≤ 0x7f := by
    intro hle
    apply hc
    rw [← String.length_utf8EncodeChar, String.utf8EncodeChar, if_pos hle]
    rfl
  have hbyte : ∀ {bits marker n : Nat}, 0 < bits ∧ 0x80 ≤ marker ∧ bits + marker ≤ 0x100 →
      0x80 ≤ UInt8.ofNat (n % bits + marker) :=
    fun h => le_ofNat_mod_add _ h.1 h.2.1 h.2.2
  have hlast : ∀ {n : Nat}, High [UInt8.ofNat (n % 64 + 128)] := fun {n} =>
    List.forall_mem_singleton.mpr (hbyte (by decide))
  simp only [String.utf8EncodeChar, if_neg hlow]
  split
  · exact List.forall_mem_cons.mpr ⟨hbyte (by decide), hlast⟩
  · split
    · exact List.forall_mem_cons.mpr ⟨hbyte (by decide), List.forall_mem_cons.mpr
        ⟨hbyte (by decide), hlast⟩⟩
    · exact List.forall_mem_cons.mpr ⟨hbyte (by decide), List.forall_mem_cons.mpr
        ⟨hbyte (by decide), List.forall_mem_cons.mpr ⟨hbyte (by decide), hlast⟩⟩⟩

/-- A character of one byte is its byte. -/
theorem exists_utf8EncodeChar_eq (hc : c.utf8Size = 1) :
    ∃ b : UInt8, String.utf8EncodeChar c = [b] ∧ b.toNat = c.toNat := by
  refine ⟨_, String.utf8EncodeChar_eq_singleton hc, ?_⟩
  rw [Char.utf8Size_eq_one_iff, UInt32.le_iff_toNat_le] at hc
  have hlt : c.val.toNat < 2 ^ 8 := Nat.lt_of_le_of_lt hc (by decide)
  exact (UInt32.toNat_toUInt8 c.val).trans (Nat.mod_eq_of_lt hlt)

/-- A byte below the upper half is a character of its own. -/
theorem exists_cons_of_bytes {text : Text} {b : UInt8} {bs : List UInt8} (hb : b < 0x80)
    (h : text.bytes = b :: bs) :
    ∃ (c : Char) (cs : Text), text = c :: cs ∧ c.toNat = b.toNat ∧ bs = cs.bytes := by
  cases text with
  | nil => cases h
  | cons c cs =>
      rw [bytes_cons] at h
      by_cases hc : c.utf8Size = 1
      · obtain ⟨b', hbytes, hvalue⟩ := exists_utf8EncodeChar_eq hc
        rw [hbytes] at h
        obtain ⟨rfl, hcs⟩ := List.cons.inj h
        exact ⟨c, cs, rfl, hvalue.symm, hcs.symm⟩
      · have hhigh := high_utf8EncodeChar hc
        obtain ⟨b', bs', hbytes⟩ := List.exists_cons_of_ne_nil (@String.utf8EncodeChar_ne_nil c)
        rw [hbytes] at h hhigh
        obtain ⟨rfl, -⟩ := List.cons.inj h
        have hle : 0x80 ≤ b' := hhigh b' List.mem_cons_self
        exact absurd hb (UInt8.not_lt.mpr hle)

/-- Behind an offset inside a character stands what is left of the character. -/
theorem exists_drop_bytes (start : Nat) (text : Text) :
    ∃ inner, text.bytes.drop start = inner ++ (text.dropBytes start).bytes ∧ High inner ∧
      (start ≤ text.width → (text.takeBytes start).width = start + inner.length) := by
  induction text generalizing start with
  | nil =>
      refine ⟨[], ?_, fun b hb => absurd hb List.not_mem_nil, fun hle => ?_⟩
      · cases start <;> rfl
      · cases Nat.le_zero.mp hle
        rfl
  | cons c cs ih =>
      cases start with
      | zero => exact ⟨[], rfl, fun b hb => absurd hb List.not_mem_nil, fun _ => rfl⟩
      | succ n =>
          have hlength := String.length_utf8EncodeChar c
          rw [bytes_cons, takeBytes, dropBytes, width_cons, width_cons]
          by_cases hpast : c.utf8Size ≤ n + 1
          · obtain ⟨inner, hdrop, hhigh, hwidth⟩ := ih (n + 1 - c.utf8Size)
            refine ⟨inner, ?_, hhigh, fun hle => ?_⟩
            · rw [List.drop_append, hlength, hdrop, List.drop_eq_nil_of_le (by omega),
                List.nil_append]
            · have hrest := hwidth (by omega)
              omega
          · have hzero : n + 1 - c.utf8Size = 0 := by omega
            have hhigh := high_utf8EncodeChar (c := c) (by omega)
            refine ⟨(String.utf8EncodeChar c).drop (n + 1), ?_, ?_, fun _ => ?_⟩
            · rw [hzero, dropBytes_zero, List.drop_append_of_le_length (by omega)]
            · exact fun b hb => hhigh b (List.mem_of_mem_drop hb)
            · rw [hzero, takeBytes_zero, width_nil, List.length_drop, hlength]
              omega

end Text

namespace Delimiter

/-- The byte of a double quote. -/
def quote : UInt8 := 0x22

/-- The byte of a backslash. -/
def backslash : UInt8 := 0x5C

/-- What stands between the quotes of a string: bytes that are neither a quote nor a backslash, and
pairs of a backslash and any byte. -/
inductive Content : List UInt8 → Prop
  | nil : Content []
  | plain {b : UInt8} {bs : List UInt8} : b ≠ quote → b ≠ backslash → Content bs →
      Content (b :: bs)
  | pair {b : UInt8} {bs : List UInt8} : Content bs → Content (backslash :: b :: bs)

/-- A complete string literal. -/
inductive IsLiteral : List UInt8 → Prop
  | quotes {content : List UInt8} : Content content → IsLiteral (quote :: (content ++ [quote]))

/-- String literals, and single bytes that are no quote and at which no delimiter begins; `rest`
stands behind them. -/
inductive Passed (rest : List UInt8) : List UInt8 → Prop
  | nil : Passed rest []
  | literal {literal passed : List UInt8} : IsLiteral literal → Passed rest passed →
      Passed rest (literal ++ passed)
  | byte {b : UInt8} {passed : List UInt8} : b ≠ quote →
      ¬ closing.bytes <+: b :: (passed ++ rest) → Passed rest passed → Passed rest (b :: passed)

/-- The delimiter that closes a directive whose body begins at byte `start` stands at byte `stop`. -/
structure IsClosing (bytes : List UInt8) (start stop : Nat) : Prop where
  start_le : start ≤ stop
  delimiter : closing.bytes <+: bytes.drop stop
  passed : Passed (bytes.drop stop) (bytes.extract start stop)

variable {b : UInt8} {bs bytes bytes' rest rest' passed : List UInt8} {mode : Mode} {text : Text}
  {start stop n : Nat}

/-- The mode after one more byte. -/
def Mode.stepByte : Mode → UInt8 → Mode
  | outside, b => if b = quote then quoted else outside
  | quoted, b => if b = quote then outside else if b = backslash then escaped else quoted
  | escaped, _ => quoted

/-- Number of bytes before the closing delimiter. -/
def closeByte? : Mode → List UInt8 → Option Nat
  | _, [] => none
  | mode, b :: bs =>
      if mode = .outside ∧ closing.bytes <+: b :: bs then some 0
      else (closeByte? (mode.stepByte b) bs).map (· + 1)

/-- What may be passed from a mode on. -/
def PassedFrom (rest : List UInt8) : Mode → List UInt8 → Prop
  | .outside, passed => Passed rest passed
  | .quoted, passed => ∃ content later, Content content ∧ passed = content ++ quote :: later ∧
      Passed rest later
  | .escaped, passed => ∃ b content later, Content content ∧
      passed = b :: (content ++ quote :: later) ∧ Passed rest later

theorem closing_bytes : closing.bytes = [0x25, 0x7D] := by decide

theorem not_closing_prefix_of_ne (h : b ≠ 0x25) : ¬ closing.bytes <+: b :: bs := by
  rw [closing_bytes, List.cons_prefix_cons]
  exact fun hbegins => h hbegins.1.symm

theorem passedFrom_nil_iff : PassedFrom rest mode [] ↔ mode = .outside := by
  cases mode with
  | outside => exact iff_of_true .nil rfl
  | quoted => simp [PassedFrom]
  | escaped => simp [PassedFrom]

theorem passed_cons_iff : Passed rest (b :: passed) ↔
    ¬ closing.bytes <+: b :: (passed ++ rest) ∧ PassedFrom rest (Mode.outside.stepByte b) passed := by
  constructor
  · intro h
    generalize hlist : b :: passed = list at h
    cases h with
    | nil => cases hlist
    | literal hliteral hlater =>
        obtain ⟨hcontent⟩ := hliteral
        obtain ⟨rfl, rfl⟩ := List.cons.inj hlist
        refine ⟨not_closing_prefix_of_ne (by decide), ?_⟩
        exact ⟨_, _, hcontent, by simp, hlater⟩
    | byte hquote hopen hlater =>
        obtain ⟨rfl, rfl⟩ := List.cons.inj hlist
        rw [Mode.stepByte, if_neg hquote]
        exact ⟨hopen, hlater⟩
  · rintro ⟨hopen, h⟩
    by_cases hquote : b = quote
    · rw [Mode.stepByte, if_pos hquote] at h
      obtain ⟨content, later, hcontent, rfl, hlater⟩ := h
      have hpassed := Passed.literal (.quotes hcontent) hlater
      rw [hquote]
      simpa using hpassed
    · rw [Mode.stepByte, if_neg hquote] at h
      exact .byte hquote hopen h

theorem passedFrom_quoted_cons_iff : PassedFrom rest .quoted (b :: passed) ↔
    PassedFrom rest (Mode.quoted.stepByte b) passed := by
  constructor
  · rintro ⟨content, later, hcontent, hlist, hlater⟩
    cases hcontent with
    | nil =>
        obtain ⟨rfl, rfl⟩ := List.cons.inj hlist
        exact hlater
    | plain hquote hbackslash hcontent =>
        obtain ⟨rfl, rfl⟩ := List.cons.inj hlist
        rw [Mode.stepByte, if_neg hquote, if_neg hbackslash]
        exact ⟨_, later, hcontent, rfl, hlater⟩
    | pair hcontent =>
        obtain ⟨rfl, rfl⟩ := List.cons.inj hlist
        exact ⟨_, _, later, hcontent, rfl, hlater⟩
  · intro h
    by_cases hquote : b = quote
    · rw [Mode.stepByte, if_pos hquote] at h
      exact ⟨[], passed, .nil, by rw [hquote]; rfl, h⟩
    rw [Mode.stepByte, if_neg hquote] at h
    by_cases hbackslash : b = backslash
    · rw [if_pos hbackslash] at h
      obtain ⟨b', content, later, hcontent, rfl, hlater⟩ := h
      exact ⟨_, later, .pair hcontent, by rw [hbackslash]; rfl, hlater⟩
    · rw [if_neg hbackslash] at h
      obtain ⟨content, later, hcontent, rfl, hlater⟩ := h
      exact ⟨_, later, .plain hquote hbackslash hcontent, rfl, hlater⟩

theorem passedFrom_escaped_cons_iff : PassedFrom rest .escaped (b :: passed) ↔
    PassedFrom rest (Mode.escaped.stepByte b) passed := by
  simp only [PassedFrom, Mode.stepByte, List.cons.injEq]
  constructor
  · rintro ⟨b', content, later, hcontent, ⟨-, rfl⟩, hlater⟩
    exact ⟨content, later, hcontent, rfl, hlater⟩
  · rintro ⟨content, later, hcontent, rfl, hlater⟩
    exact ⟨b, content, later, hcontent, ⟨rfl, rfl⟩, hlater⟩

/-- What is passed follows the modes of the search. -/
theorem passedFrom_cons_iff : PassedFrom rest mode (b :: passed) ↔
    (mode = .outside → ¬ closing.bytes <+: b :: (passed ++ rest)) ∧
      PassedFrom rest (mode.stepByte b) passed := by
  cases mode with
  | outside =>
      constructor
      · exact fun h => (passed_cons_iff.mp h).imp_left fun hopen _ => hopen
      · exact fun h => passed_cons_iff.mpr (h.imp_left fun hopen => hopen rfl)
  | quoted => simpa using passedFrom_quoted_cons_iff
  | escaped => simpa using passedFrom_escaped_cons_iff

/-- The search over bytes stops behind the only passage that a delimiter follows. -/
theorem closeByte?_eq_some_iff : closeByte? mode bytes = some n ↔
    closing.bytes <+: bytes.drop n ∧ PassedFrom (bytes.drop n) mode (bytes.take n) := by
  induction bytes generalizing mode n with
  | nil => simp [closeByte?, closing_bytes]
  | cons b bs ih =>
      rw [closeByte?]
      cases n with
      | zero =>
          rw [List.drop_zero, List.take_zero, passedFrom_nil_iff]
          split
          next hstop => exact iff_of_true rfl hstop.symm
          next hstop => exact iff_of_false (by simp) fun h => hstop h.symm
      | succ n =>
          rw [List.drop_succ_cons, List.take_succ_cons, passedFrom_cons_iff, List.take_append_drop,
            and_left_comm, ← ih]
          split
          next hstop => exact iff_of_false (by simp) fun h => h.1 hstop.1 hstop.2
          next hstop => simpa using fun _ => not_and.mp hstop

theorem isClosing_iff : IsClosing bytes start stop ↔
    start ≤ stop ∧ closeByte? .outside (bytes.drop start) = some (stop - start) := by
  rw [closeByte?_eq_some_iff, List.drop_drop]
  constructor
  · rintro ⟨hle, hdelimiter, hpassed⟩
    rw [Nat.add_sub_cancel' hle]
    exact ⟨hle, hdelimiter, hpassed⟩
  · rintro ⟨hle, hdelimiter, hpassed⟩
    rw [Nat.add_sub_cancel' hle] at hdelimiter hpassed
    exact ⟨hle, hdelimiter, hpassed⟩

theorem Mode.stepByte_of_high (hb : 0x80 ≤ b) (hmode : mode ≠ .escaped) :
    mode.stepByte b = mode := by
  have hquote : b ≠ quote := by
    rintro rfl
    exact absurd hb (by decide)
  have hbackslash : b ≠ backslash := by
    rintro rfl
    exact absurd hb (by decide)
  cases mode with
  | outside => rw [stepByte, if_neg hquote]
  | quoted => rw [stepByte, if_neg hquote, if_neg hbackslash]
  | escaped => exact absurd rfl hmode

theorem closeByte?_cons_of_high (hb : 0x80 ≤ b) :
    closeByte? mode (b :: bs) = (closeByte? (mode.stepByte b) bs).map (· + 1) := by
  have hne : b ≠ 0x25 := by
    rintro rfl
    exact absurd hb (by decide)
  rw [closeByte?, if_neg fun hstop => not_closing_prefix_of_ne hne hstop.2]

/-- Outside ASCII a byte changes nothing. -/
theorem closeByte?_append_of_high (hbytes : Text.High bytes) (hmode : mode ≠ .escaped) :
    closeByte? mode (bytes ++ rest) = (closeByte? mode rest).map (bytes.length + ·) := by
  induction bytes with
  | nil => simp
  | cons b bs ih =>
      obtain ⟨hb, hbs⟩ := List.forall_mem_cons.mp hbytes
      rw [List.cons_append, closeByte?_cons_of_high hb, Mode.stepByte_of_high hb hmode, ih hbs,
        Option.map_map]
      congr 1
      funext n
      simp only [Function.comp_apply, List.length_cons]
      omega

theorem not_closes_of_ne {c : Char} {cs : Text} (h : c ≠ '%') : ¬ closes (c :: cs) := by
  rw [closes_iff]
  rintro ⟨rest, heq⟩
  exact h (List.cons.inj heq).1

/-- A delimiter begins at a byte where it begins at a character. -/
theorem closing_prefix_bytes_iff : closing.bytes <+: text.bytes ↔ closes text := by
  rw [closes_iff]
  constructor
  · rintro ⟨rest, hrest⟩
    rw [closing_bytes] at hrest
    obtain ⟨c, cs, rfl, hc, hcs⟩ := Text.exists_cons_of_bytes (by decide) hrest.symm
    obtain ⟨d, ds, rfl, hd, -⟩ := Text.exists_cons_of_bytes (by decide) hcs.symm
    have hpercent : c = '%' := Char.toNat_inj.mp hc
    have hbrace : d = '\x7d' := Char.toNat_inj.mp hd
    exact ⟨ds, by rw [hpercent, hbrace]; rfl⟩
  · rintro ⟨rest, rfl⟩
    exact ⟨Text.bytes rest, (Text.bytes_append closing rest).symm⟩

/-- A character of one byte is searched like its byte. -/
theorem Mode.stepByte_of_toNat_eq {c : Char} (h : b.toNat = c.toNat) :
    mode.stepByte b = mode.step c := by
  have hquote : b = quote ↔ c = '"' := by
    rw [← UInt8.toNat_inj, ← Char.toNat_inj, h]
    rfl
  have hbackslash : b = backslash ↔ c = '\\' := by
    rw [← UInt8.toNat_inj, ← Char.toNat_inj, h]
    rfl
  cases mode with
  | outside => simp [stepByte, step, hquote]
  | quoted => simp [stepByte, step, hquote, hbackslash]
  | escaped => rfl

theorem Mode.step_of_ne {c : Char} (hquote : c ≠ '"') (hbackslash : c ≠ '\\')
    (hmode : mode ≠ .escaped) : mode.step c = mode := by
  cases mode with
  | outside => rw [step, if_neg hquote]
  | quoted => rw [step, if_neg hquote, if_neg hbackslash]
  | escaped => exact absurd rfl hmode

/-- The bytes of a wide character together do what the character does. -/
theorem closeByte?_wide {c : Char} (hc : c.utf8Size ≠ 1) :
    closeByte? mode (String.utf8EncodeChar c ++ rest) =
      (closeByte? (mode.step c) rest).map (c.utf8Size + ·) := by
  have hquote : c ≠ '"' := by
    rintro rfl
    exact hc rfl
  have hbackslash : c ≠ '\\' := by
    rintro rfl
    exact hc rfl
  have hhigh := Text.high_utf8EncodeChar hc
  rw [← String.length_utf8EncodeChar]
  by_cases hmode : mode = .escaped
  · obtain ⟨b, bs, hbytes⟩ := List.exists_cons_of_ne_nil (@String.utf8EncodeChar_ne_nil c)
    rw [hbytes] at hhigh ⊢
    obtain ⟨hb, hbs⟩ := List.forall_mem_cons.mp hhigh
    rw [hmode, List.cons_append, closeByte?_cons_of_high hb, Mode.stepByte, Mode.step,
      closeByte?_append_of_high hbs (by decide), Option.map_map]
    congr 1
    funext n
    simp only [Function.comp_apply, List.length_cons]
    omega
  · rw [closeByte?_append_of_high hhigh hmode, Mode.step_of_ne hquote hbackslash hmode]

/-- The search over the bytes of a text stops where the search over its characters does. -/
theorem closeByte?_bytes (mode : Mode) (n : Nat) (text : Text) :
    closeByte? mode text.bytes =
      (closeIndexFrom mode n text).map fun k => Text.width (text.take (k - n)) := by
  induction text generalizing mode n with
  | nil => rfl
  | cons c cs ih =>
      have hlater : (closeIndexFrom (mode.step c) (n + 1) cs).map
            (fun k => Text.width ((c :: cs).take (k - n))) =
          (closeByte? (mode.step c) (Text.bytes cs)).map (c.utf8Size + ·) := by
        rw [ih _ (n + 1), Option.map_map]
        refine Option.map_congr fun k hk => ?_
        have hle := (closeIndexFrom_drop hk).1
        have hsucc : k - n = k - (n + 1) + 1 := by omega
        rw [hsucc, List.take_succ_cons, Text.width_cons]
        rfl
      by_cases hc : c.utf8Size = 1
      · obtain ⟨b, hbytes, hvalue⟩ := Text.exists_utf8EncodeChar_eq hc
        have hcons : Text.bytes (c :: cs) = b :: Text.bytes cs := by
          rw [Text.bytes_cons, hbytes]
          rfl
        have hbegins := @closing_prefix_bytes_iff (c :: cs)
        rw [hcons] at hbegins ⊢
        rw [closeByte?, closeIndexFrom]
        simp only [hbegins]
        split
        next => simp
        next => rw [hlater, Mode.stepByte_of_toNat_eq hvalue, hc]; simp only [Nat.add_comm]
      · have hne : c ≠ '%' := by
          rintro rfl
          exact hc rfl
        rw [Text.bytes_cons, closeByte?_wide hc, closeIndexFrom,
          if_neg fun hstop => not_closes_of_ne hne hstop.2, hlater]

/-- The offset that the search answers is that of the search over bytes. -/
theorem closingOffset?_eq (text : Text) (start : Nat) :
    closingOffset? text start =
      (closeByte? .outside (text.bytes.drop start)).map (start + ·) := by
  obtain ⟨inner, hdrop, hhigh, hwidth⟩ := Text.exists_drop_bytes start text
  rw [hdrop, closeByte?_append_of_high hhigh (by decide), closeByte?_bytes .outside 0, Option.map_map,
    Option.map_map]
  refine Option.map_congr fun k hk => ?_
  -- A delimiter was found, so the beginning lies within the text.
  have hle : start ≤ text.width := by
    refine Nat.le_of_not_lt fun hlt => ?_
    have hlength := congrArg List.length hdrop
    rw [List.length_drop, List.length_append, Text.length_bytes, Text.length_bytes] at hlength
    have hbody : text.dropBytes start = [] := Text.eq_nil_of_width_eq_zero (by omega)
    rw [closeIndex?, hbody] at hk
    cases hk
  rw [hwidth hle, Function.comp_apply, Function.comp_apply, Nat.sub_zero, Nat.add_assoc]

theorem closingOffset?_eq_some_iff :
    closingOffset? text start = some stop ↔ IsClosing text.bytes start stop := by
  rw [closingOffset?_eq, Option.map_eq_some_iff, isClosing_iff]
  constructor
  · rintro ⟨n, hn, rfl⟩
    rw [Nat.add_sub_cancel_left]
    exact ⟨Nat.le_add_right start n, hn⟩
  · rintro ⟨hle, hn⟩
    exact ⟨stop - start, hn, Nat.add_sub_cancel' hle⟩

theorem Passed.congr (h : Passed rest passed) (hrest : closing.bytes <+: rest)
    (hrest' : closing.bytes <+: rest') : Passed rest' passed := by
  induction h with
  | nil => exact .nil
  | literal hliteral _ ih => exact .literal hliteral ih
  | @byte b passed hquote hopen _ ih =>
      refine .byte hquote (fun hbegins => hopen ?_) ih
      -- A delimiter that begins here ends with the other one at the latest.
      have hhead : ∀ {rest}, closing.bytes <+: rest →
          b :: (passed ++ closing.bytes) <+: b :: (passed ++ rest) := fun hrest =>
        List.prefix_cons_inj b |>.mpr (List.prefix_append_right_inj passed |>.mpr hrest)
      have hlength : closing.bytes.length ≤ (b :: (passed ++ closing.bytes)).length := by
        simp only [List.length_cons, List.length_append]
        omega
      exact (List.prefix_of_prefix_length_le hbegins (hhead hrest') hlength).trans (hhead hrest)

/-- The bytes behind the delimiter do not matter. -/
theorem IsClosing.congr {found behind behind' : List UInt8}
    (hfound : found.length = stop + closing.bytes.length)
    (h : IsClosing (found ++ behind) start stop) : IsClosing (found ++ behind') start stop := by
  have hlength : closing.bytes.length = (found.drop stop).length := by
    rw [List.length_drop]
    omega
  have hdrop : ∀ behind : List UInt8, (found ++ behind).drop stop = found.drop stop ++ behind :=
    fun behind => List.drop_append_of_le_length (by omega)
  have hextract : ∀ behind : List UInt8,
      (found ++ behind).extract start stop = found.extract start stop := by
    intro behind
    have hle := h.start_le
    rw [List.extract_eq_take_drop, List.extract_eq_take_drop,
      List.drop_append_of_le_length (by omega),
      List.take_append_of_le_length (by rw [List.length_drop]; omega)]
  obtain ⟨hle, hdelimiter, hpassed⟩ := h
  rw [hdrop] at hdelimiter hpassed
  rw [hextract] at hpassed
  have hbegins : closing.bytes <+: found.drop stop :=
    List.prefix_of_prefix_length_le hdelimiter (List.prefix_append ..) (Nat.le_of_eq hlength)
  have hdelimiter' : closing.bytes <+: found.drop stop ++ behind' :=
    hbegins.trans (List.prefix_append ..)
  refine ⟨hle, ?_, ?_⟩
  · rwa [hdrop]
  · rw [hdrop, hextract]
    exact hpassed.congr hdelimiter hdelimiter'

theorem isBoundary_of_closingOffset? (h : closingOffset? text start = some stop) :
    text.IsBoundary stop := by
  obtain ⟨n, -, rfl⟩ := Option.map_eq_some_iff.mp h
  refine ⟨text.takeBytes start ++ (text.dropBytes start).take n, (text.dropBytes start).drop n, ?_, ?_⟩
  · rw [List.append_assoc, List.take_append_drop, Text.takeBytes_append_dropBytes]
  · rw [Text.width_append]

/-- What is found is found whatever is put behind it. -/
theorem closingOffset?_cut (h : closingOffset? text start = some stop) (behind : Text) :
    closingOffset? (text.takeBytes (stop + closing.width) ++ behind) start = some stop := by
  obtain ⟨before, after, rfl, rfl⟩ := isBoundary_of_closingOffset? h
  have hclosing := closingOffset?_eq_some_iff.mp h
  have hdelimiter := hclosing.delimiter
  rw [Text.bytes_append, ← Text.length_bytes, List.drop_left, closing_prefix_bytes_iff,
    closes_iff] at hdelimiter
  obtain ⟨rest, rfl⟩ := hdelimiter
  have hfound : (before ++ closing : Text).bytes.length = before.width + closing.bytes.length := by
    rw [Text.length_bytes, Text.length_bytes, Text.width_append]
  rw [← List.append_assoc] at hclosing ⊢
  rw [← Text.width_append, Text.takeBytes_width_append, closingOffset?_eq_some_iff, Text.bytes_append]
  rw [Text.bytes_append] at hclosing
  exact hclosing.congr hfound

theorem closingOffset?_append_right (h : closingOffset? text start = some stop) (behind : Text) :
    closingOffset? (text ++ behind) start = some stop := by
  have hcut := closingOffset?_cut h (text.dropBytes (stop + closing.width) ++ behind)
  rwa [← List.append_assoc, Text.takeBytes_append_dropBytes] at hcut

/-- What stands before the beginning only moves the answer. -/
theorem closingOffset?_append_left (before text : Text) (start : Nat) :
    closingOffset? (before ++ text) (before.width + start) =
      (closingOffset? text start).map (before.width + ·) := by
  rw [closingOffset?_eq, closingOffset?_eq, Text.bytes_append, ← Text.length_bytes,
    List.drop_length_add_append, Option.map_map]
  congr 1
  funext n
  exact Nat.add_assoc ..

/-- What the search for the closing delimiter answers. -/
structure FindsClosing (document : String) (start : Nat) : Prop where
  eq_some_iff : ∀ stop, closingOffset? document.toList start = some stop ↔
    IsClosing document.toByteArray.data.toList start stop
  eq_none_iff : closingOffset? document.toList start = none ↔
    ∀ stop, ¬ IsClosing document.toByteArray.data.toList start stop
  unique : ∀ stop stop', IsClosing document.toByteArray.data.toList start stop →
    IsClosing document.toByteArray.data.toList start stop' → stop = stop'
  boundary : ∀ stop, IsClosing document.toByteArray.data.toList start stop →
    Text.IsBoundary document.toList stop
  /-- More text behind the document, or other text behind the delimiter. -/
  behind : ∀ stop, closingOffset? document.toList start = some stop → ∀ behind : String,
    closingOffset? (document ++ behind).toList start = some stop ∧
      closingOffset? (Text.takeBytes (stop + closing.width) document.toList ++ behind.toList) start =
        some stop
  before : ∀ before : String,
    closingOffset? (before ++ document).toList (before.utf8ByteSize + start) =
      (closingOffset? document.toList start).map (before.utf8ByteSize + ·)

/-- The search finds the one delimiter behind whole literals and other bytes, wherever it begins. -/
theorem findsClosing (document : String) (start : Nat) : FindsClosing document start := by
  have hsome : ∀ stop, closingOffset? document.toList start = some stop ↔
      IsClosing document.toByteArray.data.toList start stop := by
    intro stop
    rw [closingOffset?_eq_some_iff, Text.bytes_toList]
  constructor
  case eq_some_iff => exact hsome
  case eq_none_iff =>
    rw [Option.eq_none_iff_forall_ne_some]
    exact forall_congr' fun stop => not_congr (hsome stop)
  case unique =>
    intro stop stop' hstop hstop'
    exact Option.some.inj (((hsome stop).mpr hstop).symm.trans ((hsome stop').mpr hstop'))
  case boundary => exact fun stop hstop => isBoundary_of_closingOffset? ((hsome stop).mpr hstop)
  case behind =>
    intro stop hstop behind
    rw [String.toList_append]
    exact ⟨closingOffset?_append_right hstop _, closingOffset?_cut hstop _⟩
  case before =>
    intro before
    rw [String.toList_append, ← Text.width_toList]
    exact closingOffset?_append_left before.toList document.toList start

/-- The first delimiter stands in a string, behind a quote that a backslash hides. -/
example : closingOffset? "\x7b% \"\\\"%\x7d\" %\x7d".toList 2 = some 10 := by decide +kernel

end Delimiter

end TaggedText
