import TaggedText.Proofs.Grammar.Bodies

/-!
# The canonical text of a descriptor

A descriptor is written with one blank behind each comma and colon and before each attribute, with
the least number of backslashes, and with every number and path in a form of the writer's choice. The
built-in grammar recovers the descriptor from such a text. It does so because the text is a sentence
of the language whose attributes stand apart.
-/
namespace TaggedText

namespace Grammar

/-- A backslash before each quote and each backslash. -/
def escape (text : Text) : Text :=
  text.flatMap fun c => if c = '\\' ∨ c = '"' then ['\\', c] else [c]

def quote (s : String) : Text :=
  '"' :: escape s.toList ++ ['"']

def commas : List Text → Text
  | [] => []
  | [item] => item
  | item :: next :: items => item ++ ',' :: ' ' :: commas (next :: items)

inductive WrittenPath : List PathSegment → Text → Prop
  | nil : WrittenPath [] []
  | dot {name : String} {segments : List PathSegment} {text : Text} : IsIdentifier name.toList →
      WrittenPath segments text →
      WrittenPath (.key name :: segments) ('.' :: name.toList ++ text)
  | key {name : String} {segments : List PathSegment} {text : Text} :
      WrittenPath segments text →
      WrittenPath (.key name :: segments) ('[' :: quote name ++ ']' :: text)
  | index {n : Nat} {segments : List PathSegment} {text : Text} : n < 2 ^ 64 →
      WrittenPath segments text →
      WrittenPath (.index n :: segments) ('[' :: Nat.toDigits 10 n ++ ']' :: text)

inductive WrittenKey : Text → Option String → Prop
  | quoted (key : String) : WrittenKey (quote key ++ [':', ' ']) (some key)

inductive WrittenName : Text → Option String → Prop
  | bare : WrittenName [] none
  | named {name : String} : IsIdentifier name.toList →
      WrittenName (name.toList ++ ['=']) (some name)

/-- A value with a canonical text. A number may be written in any form that is read as it. -/
inductive Written : Value → Text → Prop
  | null : Written .null "null".toList
  | true : Written (.bool true) "true".toList
  | false : Written (.bool false) "false".toList
  | string (s : String) : Written (.string s) (quote s)
  | number {c : Char} {cs : Text} {n : Number} : IsNumeral (c :: cs) → startsNumber c →
      Number.ofText? (c :: cs) = some n → Written (.number n) (c :: cs)
  | array {items : List Item} : (∀ i ∈ items, IsBare i.label i.name) →
      (∀ i ∈ items, Written i.value i.text) →
      Written (.array (items.map Item.value)) ('[' :: commas (items.map Item.source) ++ [']'])
  | map {items : List Item} : (∀ i ∈ items, WrittenKey i.label i.name) →
      (items.filterMap Item.name).Nodup → (∀ i ∈ items, Written i.value i.text) →
      Written (.map (Item.entries 0 items))
        ('\x7b' :: commas (items.map Item.source) ++ ['\x7d'])
  | reference {name : String} {segments : List PathSegment} {text : Text} :
      IsIdentifier name.toList → WrittenPath segments text →
      Written (.reference (.key name :: segments)) ('$' :: name.toList ++ text)
  | call {name : String} {items : List Item} : IsIdentifier name.toList → name ∉ reserved →
      (∀ i ∈ items, WrittenName i.label i.name) → (items.filterMap Item.name).Nodup →
      (∀ i ∈ items, Written i.value i.text) →
      Written (.call name (Item.entries 0 items))
        (name.toList ++ '(' :: commas (items.map Item.source) ++ [')'])

/-- Every numeral with a digit is the text of a number. -/
theorem exists_written_number {c : Char} {cs : Text} (hword : IsNumeral (c :: cs))
    (hstart : startsNumber c) (hdigit : ∃ d ∈ c :: cs, d.isDigit) :
    ∃ n, Written (.number n) (c :: cs) := by
  have ⟨n, hn⟩ := exists_number hword hdigit
  exact ⟨n, .number hword hstart hn⟩

inductive WrittenAttribute : Attribute → Text → Prop
  | id {name : String} : IsIdentifier name.toList →
      WrittenAttribute ⟨"id", .id, .string name⟩ ('#' :: name.toList)
  | classed {name : String} : IsIdentifier name.toList →
      WrittenAttribute ⟨"class", .classed, .string name⟩ ('.' :: name.toList)
  | plain {name : String} {v : Value} {text : Text} : IsIdentifier name.toList → Written v text →
      WrittenAttribute ⟨name, .plain, v⟩ (name.toList ++ '=' :: text)

/-- Attributes, each behind a blank. -/
inductive WrittenAttributes : List Attribute → Text → Prop
  | nil : WrittenAttributes [] []
  | cons {a : Attribute} {list : List Attribute} {text rest : Text} : WrittenAttribute a text →
      WrittenAttributes list rest → WrittenAttributes (a :: list) (' ' :: text ++ rest)

/-- What stands behind the name of a tag. The value of a first attribute `primary` may stand alone. -/
inductive WrittenArguments : List Attribute → Text → Prop
  | named {list : List Attribute} {text : Text} : WrittenAttributes list text →
      WrittenArguments list text
  | primary {v : Value} {list : List Attribute} {text rest : Text} : Written v text →
      WrittenAttributes list rest →
      WrittenArguments (⟨"primary", .plain, v⟩ :: list) (' ' :: text ++ rest)

inductive WrittenDescriptor : Descriptor → Text → Prop
  | closing {name : String} : IsIdentifier name.toList →
      WrittenDescriptor (.closing name) ('/' :: name.toList)
  | opening {name : String} {list : List Attribute} {text : Text} : IsIdentifier name.toList →
      WrittenArguments list text → WrittenDescriptor (.opening name list) (name.toList ++ text)
  | selfClosing {name : String} {list : List Attribute} {text : Text} : IsIdentifier name.toList →
      WrittenArguments list text →
      WrittenDescriptor (.selfClosing name list) (name.toList ++ text ++ [' ', '/'])
  | annotating {a : Attribute} {list : List Attribute} {text rest : Text} :
      WrittenAttribute a text → WrittenAttributes list rest →
      WrittenDescriptor (.annotating (a :: list)) (text ++ rest)

theorem quoted_escape (text : Text) : Quoted (escape text) text := by
  induction text with
  | nil => exact .nil
  | cons c cs ih =>
      rw [escape, List.flatMap_cons]
      split
      next hc =>
        have hescapes : Escapes c c := by
          rcases hc with rfl | rfl
          · exact .other (by decide) (by decide) (by decide)
          · exact .other (by decide) (by decide) (by decide)
        exact .escaped hescapes ih
      next hc =>
        rw [not_or] at hc
        exact .raw hc.2 hc.1 ih

theorem isString_quote (s : String) : IsString (quote s) s := by
  have hstring : IsString (quote s) (String.ofList s.toList) := .quotes (quoted_escape s.toList)
  rwa [String.ofList_toList] at hstring

theorem blanks_singleton : Blanks [' '] := by
  intro c hc
  rw [List.mem_singleton.mp hc]
  decide

theorem Enclosed.append_blanks {close : Char} {items : List Text} {word blanks : Text}
    (h : Enclosed close items word) (hblanks : Blanks blanks) :
    Enclosed close items (blanks ++ word) := by
  cases h with
  | nil hbefore =>
      rw [← List.append_assoc]
      exact .nil (hblanks.append hbefore)
  | last hbefore hafter =>
      rw [← List.append_assoc, ← List.append_assoc, ← List.append_assoc]
      exact .last (hblanks.append hbefore) hafter
  | cons hbefore hafter hitems =>
      rw [← List.append_assoc, ← List.append_assoc, ← List.append_assoc]
      exact .cons (hblanks.append hbefore) hafter hitems

theorem enclosed_commas (close : Char) (items : List Text) :
    Enclosed close items (commas items ++ [close]) := by
  match items with
  | [] => exact .nil blanks_nil
  | [item] =>
      have hlast : Enclosed close [item] ([] ++ item ++ [] ++ [close]) := .last blanks_nil blanks_nil
      simpa [commas] using hlast
  | item :: next :: items =>
      have htail := (enclosed_commas close (next :: items)).append_blanks blanks_singleton
      have hcons : Enclosed close (item :: next :: items)
          ([] ++ item ++ [] ++ ',' :: ([' '] ++ (commas (next :: items) ++ [close]))) :=
        .cons blanks_nil blanks_nil htail
      simpa [commas] using hcons

theorem isSubscript_toDigits {n : Nat} (hn : n < 2 ^ 64) :
    IsSubscript (Nat.toDigits 10 n) (.index n) := by
  have hvalue : Nat.ofDigitChars 10 (Nat.toDigits 10 n) 0 = n := Nat.ofDigitChars_ten_toDigits
  have hdigits : Digits (Nat.toDigits 10 n) := fun c hc =>
    Nat.isDigit_of_mem_toDigits (by decide) (by decide) hc
  have hindex : IsSubscript (Nat.toDigits 10 n)
      (.index (Nat.ofDigitChars 10 (Nat.toDigits 10 n) 0)) :=
    .index Nat.toDigits_ne_nil hdigits (by rwa [hvalue])
  rwa [hvalue] at hindex

theorem isPath_of_written {segments : List PathSegment} {text : Text}
    (h : WrittenPath segments text) : IsPath text segments := by
  have hbracket : ∀ {inside text : Text} {segment : PathSegment} {segments : List PathSegment},
      IsSubscript inside segment → IsPath text segments →
      IsPath ('[' :: inside ++ ']' :: text) (segment :: segments) := by
    intro inside text segment segments hinside htext
    have hpath := IsPath.bracket blanks_nil hinside blanks_nil htext
    simpa using hpath
  induction h with
  | nil => exact .nil
  | dot hname _ ih =>
      have hpath := IsPath.dot hname ih
      rwa [String.ofList_toList] at hpath
  | key _ ih => exact hbracket (.key (isString_quote _)) ih
  | index hn _ ih => exact hbracket (isSubscript_toDigits hn) ih

theorem isKey_of_written {label : Text} {name : Option String} (h : WrittenKey label name) :
    IsKey label name := by
  cases h with
  | quoted key =>
      have hkey := IsKey.string (isString_quote key) blanks_nil blanks_singleton
      simpa using hkey

theorem isName_of_identifier_append {name : String} (h : IsIdentifier name.toList) :
    IsName (name.toList ++ ['=']) (some name) := by
  have hname := IsName.identifier h blanks_nil blanks_nil
  rw [String.ofList_toList] at hname
  simpa using hname

theorem isOptionalName_of_written {label : Text} {name : Option String}
    (h : WrittenName label name) : IsOptionalName label name := by
  cases h with
  | bare => exact .bare .nil
  | named hname => exact .name (isName_of_identifier_append hname)

theorem toString_injective {m n : Nat} (h : toString m = toString n) : m = n := by
  have hdigits : Nat.toDigits 10 m = Nat.toDigits 10 n := by
    rw [← Nat.toList_repr, ← Nat.toList_repr]
    exact congrArg String.toList h
  rw [← @Nat.ofDigitChars_ten_toDigits m, hdigits, Nat.ofDigitChars_ten_toDigits]

theorem not_isIdentifier_toString (n : Nat) : ¬ IsIdentifier (toString n).toList := by
  intro h
  have hlist : (toString n).toList = Nat.toDigits 10 n := Nat.toList_repr
  have ⟨c, cs, hcs, hc⟩ := h.exists_head
  have hmem : c ∈ Nat.toDigits 10 n := by
    rw [← hlist, hcs]
    exact List.mem_cons_self
  have hdigit : c.isDigit := Nat.isDigit_of_mem_toDigits (by decide) (by decide) hmem
  have hstart : startsNumber c := by simp [startsNumber, hdigit]
  exact not_isIdentifierStart_of_startsNumber hstart hc

namespace Item

/-- A key is the name of an item, or the number of one that has none. -/
theorem mem_keys_entries {n : Nat} {items : List Item} {key : String}
    (h : key ∈ Entries.keys (entries n items)) :
    key ∈ items.filterMap name ∨ ∃ m, n ≤ m ∧ key = toString m := by
  induction items generalizing n with
  | nil => cases h
  | cons item items ih =>
      cases hname : item.name with
      | some name =>
          simp only [entries, hname, Entries.keys, List.map_cons, List.mem_cons] at h
          rw [List.filterMap_cons_some hname]
          rcases h with rfl | h
          · exact .inl List.mem_cons_self
          · rcases ih h with hmem | hnumber
            · exact .inl (List.mem_cons_of_mem _ hmem)
            · exact .inr hnumber
      | none =>
          simp only [entries, hname, Entries.keys, List.map_cons, List.mem_cons] at h
          rw [List.filterMap_cons_none hname]
          rcases h with rfl | h
          · exact .inr ⟨n, Nat.le_refl n, rfl⟩
          · rcases ih h with hmem | ⟨m, hm, hkey⟩
            · exact .inl hmem
            · exact .inr ⟨m, Nat.le_of_succ_le hm, hkey⟩

theorem distinct_entries {n : Nat} {items : List Item} (hnames : (items.filterMap name).Nodup)
    (hapart : ∀ m : Nat, n ≤ m → toString m ∉ items.filterMap name) :
    Entries.Distinct (entries n items) := by
  induction items generalizing n with
  | nil => exact List.nodup_nil
  | cons item items ih =>
      unfold Entries.Distinct
      cases hname : item.name with
      | some name =>
          rw [List.filterMap_cons_some hname] at hnames hapart
          have ⟨hnew, hnames⟩ := List.nodup_cons.mp hnames
          simp only [entries, hname, Entries.keys, List.map_cons]
          apply List.nodup_cons.mpr
          constructor
          · intro hmem
            rcases mem_keys_entries hmem with hmem | ⟨m, hm, rfl⟩
            · exact hnew hmem
            · exact hapart m hm List.mem_cons_self
          · exact ih hnames fun m hm hmem => hapart m hm (List.mem_cons_of_mem _ hmem)
      | none =>
          rw [List.filterMap_cons_none hname] at hnames hapart
          simp only [entries, hname, Entries.keys, List.map_cons]
          apply List.nodup_cons.mpr
          constructor
          · intro hmem
            rcases mem_keys_entries hmem with hmem | ⟨m, hm, hkey⟩
            · exact hapart n (Nat.le_refl n) hmem
            · have heq := toString_injective hkey
              omega
          · exact ih hnames fun m hm => hapart m (Nat.le_of_succ_le hm)

theorem keys_entries_of_named {n : Nat} {items : List Item} (h : ∀ i ∈ items, i.name.isSome) :
    Entries.keys (entries n items) = items.filterMap name := by
  induction items with
  | nil => rfl
  | cons item items ih =>
      have ⟨hitem, hitems⟩ := List.forall_mem_cons.mp h
      have ⟨name, hname⟩ := Option.isSome_iff_exists.mp hitem
      have htail := ih hitems
      rw [List.filterMap_cons_some hname, ← htail]
      simp only [entries, hname, Entries.keys, List.map_cons]

end Item

theorem toString_not_mem_of_written {items : List Item}
    (h : ∀ i ∈ items, WrittenName i.label i.name) (m : Nat) :
    toString m ∉ items.filterMap Item.name := by
  intro hmem
  have ⟨i, hi, hname⟩ := List.mem_filterMap.mp hmem
  have hwritten := h i hi
  rw [hname] at hwritten
  generalize i.label = label at hwritten
  cases hwritten with
  | named hidentifier => exact not_isIdentifier_toString m hidentifier

/-- The canonical text of a value is a text of the language and denotes the value. -/
theorem denotes_of_written {v : Value} {text : Text} (h : Written v text) : Denotes text v := by
  induction h with
  | null => exact .null
  | true => exact .true
  | false => exact .false
  | string s => exact .string (isString_quote s)
  | number hnumeral hstart hn => exact .number hnumeral hstart hn
  | array hlabels _ ih => exact .array hlabels ih (enclosed_commas ']' _)
  | @map items hlabels hnames _ ih =>
      have hkeys : ∀ i ∈ items, IsKey i.label i.name := fun i hi => isKey_of_written (hlabels i hi)
      have hdistinct : Entries.Distinct (Item.entries 0 items) := by
        rw [Entries.Distinct, Item.keys_entries_of_named fun i hi => isSome_of_isKey (hkeys i hi)]
        exact hnames
      have hmap := Denotes.map hkeys ih (enclosed_commas '\x7d' _)
      rw [Entries.ofList_eq_self hdistinct] at hmap
      exact hmap
  | reference hname hpath =>
      have hreference := Denotes.reference hname (isPath_of_written hpath)
      rwa [String.ofList_toList] at hreference
  | @call name items hname hreserved hlabels hnames _ ih =>
      have hdistinct : Entries.Distinct (Item.entries 0 items) :=
        Item.distinct_entries hnames fun m _ => toString_not_mem_of_written hlabels m
      have hreserved : String.ofList name.toList ∉ reserved := by
        rwa [String.ofList_toList]
      have hcall := Denotes.call hname hreserved
        (fun i hi => isOptionalName_of_written (hlabels i hi)) ih (enclosed_commas ')' _)
      rw [String.ofList_toList, Entries.ofList_eq_self hdistinct] at hcall
      simpa using hcall

theorem isAttribute_of_written {a : Attribute} {text : Text} (h : WrittenAttribute a text) :
    IsAttribute text a := by
  cases h with
  | id hname =>
      have hid := IsAttribute.id hname
      rwa [String.ofList_toList] at hid
  | classed hname =>
      have hclass := IsAttribute.classed hname
      rwa [String.ofList_toList] at hclass
  | plain hname hwritten =>
      have hplain := IsAttribute.plain (isName_of_identifier_append hname)
        (denotes_of_written hwritten)
      simpa using hplain

theorem areSpaced_of_written {list : List Attribute} {text : Text}
    (h : WrittenAttributes list text) : AreSpaced text list := by
  induction h with
  | nil => exact .nil
  | cons ha _ ih =>
      exact .cons blanks_singleton (List.cons_ne_nil ' ' []) (isAttribute_of_written ha) ih

theorem exists_spaced_of_written {list : List Attribute} {text : Text}
    (h : WrittenArguments list text) :
    ∃ first others fs os, IsSpacedPrimary first fs ∧ AreSpaced others os ∧ list = fs ++ os ∧
      text = first ++ others := by
  cases h with
  | named hlist => exact ⟨[], text, [], list, .nil, areSpaced_of_written hlist, rfl, rfl⟩
  | @primary v list text rest hv hlist =>
      have hfirst : IsSpacedPrimary ([' '] ++ text) [⟨"primary", .plain, v⟩] :=
        .value blanks_singleton (List.cons_ne_nil ' ' []) (denotes_of_written hv)
      exact ⟨[' '] ++ text, rest, _, list, hfirst, areSpaced_of_written hlist, rfl, rfl⟩

theorem endsBody_nil : EndsBody [] where
  blank _ hc := by cases hc
  slash _ hc := by cases hc

theorem endsBody_slash : EndsBody [' ', '/'] where
  blank c hc := by
    cases hc
    decide
  slash c hc := by
    cases hc
    rfl

/-- The built-in grammar recovers a descriptor from its canonical text. -/
theorem standard_of_written (d : Descriptor) (text : Text) (h : WrittenDescriptor d text) :
    standard text = .ok d := by
  apply standard_eq_ok_iff.mpr
  cases h with
  | closing hname =>
      rw [descriptor_closing hname, String.ofList_toList]
  | @opening name list text hname harguments =>
      obtain ⟨first, others, fs, os, hfirst, hothers, rfl, rfl⟩ := exists_spaced_of_written harguments
      have hread := descriptor_named hname hfirst hothers endsBody_nil
      rw [List.append_nil, String.ofList_toList] at hread
      exact hread
  | @selfClosing name list text hname harguments =>
      obtain ⟨first, others, fs, os, hfirst, hothers, rfl, rfl⟩ := exists_spaced_of_written harguments
      have hread := descriptor_named hname hfirst hothers endsBody_slash
      rw [String.ofList_toList] at hread
      rw [List.append_assoc, List.append_assoc]
      exact hread
  | @annotating a list text rest ha hlist =>
      have hattribute := isAttribute_of_written ha
      have hread := annotation_append hattribute (areSpaced_of_written hlist) endsBody_nil
      rw [List.append_nil] at hread
      rw [descriptor_of_attribute hattribute]
      exact hread

theorem standard_of_written_nested :
    standard "card \"a\\\\b\" #i k=[-1.5, f($v[\"x y\"][2], n=true)] /".toList =
      .ok (.selfClosing "card" [⟨"primary", .plain, .string "a\\b"⟩, ⟨"id", .id, .string "i"⟩,
        ⟨"k", .plain, .array [.number (.ofRank true 4609434218613702656),
          .call "f" [("0", .reference [.key "v", .key "x y", .index 2]),
            ("n", .bool true)]]⟩]) := by
  have hnumber : Written (.number (.ofRank true 4609434218613702656)) "-1.5".toList :=
    .number (@IsNumeral.fraction ['-'] ['1'] ['5'] (.inr rfl) (by decide)
      (by decide)) (by decide) (by decide +kernel)
  have hpath : WrittenPath [.key "x y", .index 2] "[\"x y\"][2]".toList := .key (.index (by decide) .nil)
  have hreference : Written (.reference [.key "v", .key "x y", .index 2]) "$v[\"x y\"][2]".toList :=
    @Written.reference "v" _ _ (by decide) hpath
  have hname : WrittenName "n=".toList (some "n") := @WrittenName.named "n" (by decide)
  have hcall : Written (.call "f" [("0", .reference [.key "v", .key "x y", .index 2]),
      ("n", .bool true)]) "f($v[\"x y\"][2], n=true)".toList :=
    @Written.call "f" [⟨[], none, "$v[\"x y\"][2]".toList, .reference [.key "v", .key "x y", .index 2]⟩,
      ⟨"n=".toList, some "n", "true".toList, .bool true⟩] (by decide) (by decide)
      (List.forall_mem_cons.mpr ⟨.bare, List.forall_mem_singleton.mpr hname⟩) (by decide)
      (List.forall_mem_cons.mpr ⟨hreference, List.forall_mem_singleton.mpr .true⟩)
  have harray : Written (.array [.number (.ofRank true 4609434218613702656),
      .call "f" [("0", .reference [.key "v", .key "x y", .index 2]), ("n", .bool true)]])
      "[-1.5, f($v[\"x y\"][2], n=true)]".toList :=
    @Written.array [⟨[], none, "-1.5".toList, .number (.ofRank true 4609434218613702656)⟩,
      ⟨[], none, "f($v[\"x y\"][2], n=true)".toList, .call "f"
        [("0", .reference [.key "v", .key "x y", .index 2]), ("n", .bool true)]⟩]
      (List.forall_mem_cons.mpr ⟨.nil, List.forall_mem_singleton.mpr .nil⟩)
      (List.forall_mem_cons.mpr ⟨hnumber, List.forall_mem_singleton.mpr hcall⟩)
  exact standard_of_written _ _ (@WrittenDescriptor.selfClosing "card" _ _ (by decide)
    (.primary (.string "a\\b") (.cons (@WrittenAttribute.id "i" (by decide))
      (.cons (@WrittenAttribute.plain "k" _ _ (by decide) harray) .nil))))

end Grammar

end TaggedText
