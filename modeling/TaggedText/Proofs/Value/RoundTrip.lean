import TaggedText.Proofs.Entries
import TaggedText.Proofs.Json.RoundTrip
import TaggedText.Proofs.Rounding
import TaggedText.Value.Encoding

/-!
# Values read back from JSON

A value whose numbers are whole and small, or not finite, is read back from its JSON text without
spaces, if that does not nest too deep. What comes back is plain data: a reference and a call are the
maps by which they are written, a custom object is its text, and a number that is not finite is null.
A value of plain data comes back as the same value, with the entries of its maps in order.
-/
namespace TaggedText

namespace Value

/-- A value in which every finite number is whole, and no number or index is above the bound for
integers. -/
inductive IsExact : Value → Prop
  | null : IsExact null
  | bool (b : Bool) : IsExact (bool b)
  | whole {n : Number} {i : Int} : n.toInt? = some i → i.natAbs ≤ exactBound → IsExact (number n)
  | notFinite {n : Number} : n.isFinite = false → IsExact (number n)
  | string (s : String) : IsExact (string s)
  | array {items : List Value} : (∀ item ∈ items, IsExact item) → IsExact (array items)
  | map {entries : List (String × Value)} : (∀ entry ∈ entries, IsExact entry.2) →
      IsExact (map entries)
  | reference {path : List PathSegment} : (∀ n, .index n ∈ path → n ≤ exactBound) →
      IsExact (reference path)
  | call {arguments : List (String × Value)} (name : String) :
      (∀ entry ∈ arguments, IsExact entry.2) → IsExact (call name arguments)
  | custom (identity : Nat) (text : String) : IsExact (custom identity text)

/-- A value without references, calls and custom objects, in which every number is finite. -/
inductive IsPlain : Value → Prop
  | null : IsPlain null
  | bool (b : Bool) : IsPlain (bool b)
  | number {n : Number} : n.isFinite = true → IsPlain (number n)
  | string (s : String) : IsPlain (string s)
  | array {items : List Value} : (∀ item ∈ items, IsPlain item) → IsPlain (array items)
  | map {entries : List (String × Value)} : (∀ entry ∈ entries, IsPlain entry.2) →
      IsPlain (map entries)

/-- A step of a path as data. -/
def ofSegment : PathSegment → Value
  | .key name => string name
  | .index n => number (.ofInt n)

mutual

/-- The plain data that a value becomes in JSON. -/
def plain : Value → Value
  | number n => if n.isFinite then number n else null
  | array items => array (plainItems items)
  | map entries => map (plainEntries entries)
  | reference path => map [("$$mdtype", string "Variable"), ("path", array (path.map ofSegment))]
  | call name arguments =>
      map [("$$mdtype", string "Function"), ("name", string name),
        ("parameters", map (plainEntries arguments))]
  | custom _ text => string text
  | value => value

def plainItems : List Value → List Value
  | [] => []
  | item :: items => item.plain :: plainItems items

def plainEntries : List (String × Value) → List (String × Value)
  | [] => []
  | (key, value) :: rest => (key, value.plain) :: plainEntries rest

end

/-- Equality of plain data that knows the order of entries: the keys are the same in the same places,
and numbers are the same as numbers. -/
inductive SameData : Value → Value → Prop
  | null : SameData null null
  | bool (b : Bool) : SameData (bool b) (bool b)
  | number {m n : Number} : m.same n = true → SameData (number m) (number n)
  | string (s : String) : SameData (string s) (string s)
  | array {pairs : List (Value × Value)} : (∀ p ∈ pairs, SameData p.1 p.2) →
      SameData (array (pairs.map Prod.fst)) (array (pairs.map Prod.snd))
  | map {entries : List (String × Value × Value)} : (∀ e ∈ entries, SameData e.2.1 e.2.2) →
      SameData (map (entries.map fun e => (e.1, e.2.1))) (map (entries.map fun e => (e.1, e.2.2)))

variable {v w : Value} {items : List Value} {entries : List (String × Value)}

theorem plainItems_eq (items : List Value) : plainItems items = items.map plain :=
  eq_map rfl (fun _ _ => rfl) items

theorem plainEntries_eq (entries : List (String × Value)) :
    plainEntries entries = entries.map fun entry => (entry.1, entry.2.plain) :=
  eq_map rfl (fun _ _ => rfl) entries

theorem itemsJson_eq (items : List Value) : itemsJson items = items.map toJson :=
  eq_map rfl (fun _ _ => rfl) items

theorem entriesJson_eq (entries : List (String × Value)) :
    entriesJson entries = entries.map fun entry => (entry.1, entry.2.toJson) :=
  eq_map rfl (fun _ _ => rfl) entries

theorem itemsOfJson_eq (items : List Json) : itemsOfJson items = items.map ofJson :=
  eq_map rfl (fun _ _ => rfl) items

theorem membersOfJson_eq (members : List (String × Json)) :
    membersOfJson members = members.map fun member => (member.1, ofJson member.2) :=
  eq_map rfl (fun _ _ => rfl) members

theorem distinctItems_iff : DistinctItems items ↔ ∀ item ∈ items, item.Distinct := by
  induction items with
  | nil => simp [DistinctItems]
  | cons item items ih => rw [DistinctItems, ih, List.forall_mem_cons]

theorem distinctEntries_iff : DistinctEntries entries ↔ ∀ entry ∈ entries, entry.2.Distinct := by
  induction entries with
  | nil => simp [DistinctEntries]
  | cons entry entries ih => rw [DistinctEntries, ih, List.forall_mem_cons]

theorem numberJson_of_not_finite {n : Number} (h : n.isFinite = false) :
    numberJson n = .number n := by
  cases n with
  | finite negative rank => cases h
  | _ => rfl

theorem numberJson_whole {n : Number} {i : Int} (h : n.toInt? = some i)
    (hi : i.natAbs ≤ exactBound) : numberJson n = .integer i := by
  rw [numberJson, h]
  exact if_pos hi

theorem isFinite_of_toInt? {n : Number} {i : Int} (h : n.toInt? = some i) : n.isFinite = true := by
  cases n with
  | finite negative rank => rfl
  | _ => cases h

theorem lt_wordLimit {n : Nat} (h : n ≤ exactBound) : n < Json.wordLimit :=
  Nat.lt_of_le_of_lt h (by decide)

theorem integral_segmentJson {path : List PathSegment}
    (h : ∀ n, .index n ∈ path → n ≤ exactBound) :
    ∀ segment ∈ path.map segmentJson, segment.Integral := by
  rw [List.forall_mem_map]
  intro segment hsegment
  cases segment with
  | key name => exact .string name
  | index n => exact .integer (lt_wordLimit (h n hsegment))

theorem IsExact.integral_toJson (h : v.IsExact) : v.toJson.Integral := by
  have hentries : ∀ {entries : List (String × Value)},
      (∀ entry ∈ entries, entry.2.toJson.Integral) →
        (Json.object (entriesJson entries)).Integral := by
    intro entries hentries
    rw [entriesJson_eq]
    exact .object (List.forall_mem_map.mpr hentries)
  induction h with
  | null => exact .null
  | bool b => exact .bool b
  | whole hn hi =>
      rw [toJson, numberJson_whole hn hi]
      exact .integer (lt_wordLimit hi)
  | notFinite hn =>
      rw [toJson, numberJson_of_not_finite hn]
      exact .number hn
  | string s => exact .string s
  | array _ ih =>
      rw [toJson, itemsJson_eq]
      exact .array (List.forall_mem_map.mpr ih)
  | map _ ih => exact hentries ih
  | reference hpath =>
      refine .object (List.forall_mem_cons.mpr ⟨.string _, List.forall_mem_singleton.mpr ?_⟩)
      exact .array (integral_segmentJson hpath)
  | call name _ ih =>
      refine .object (List.forall_mem_cons.mpr ⟨.string _, List.forall_mem_cons.mpr
        ⟨.string _, List.forall_mem_singleton.mpr (hentries ih)⟩⟩)
  | custom _ text => exact .string text

theorem SameData.array_map {α : Type} {f g : α → Value} {list : List α}
    (h : ∀ a ∈ list, SameData (f a) (g a)) : SameData (.array (list.map f)) (.array (list.map g)) := by
  have hpairs := @SameData.array (list.map fun a => (f a, g a)) (List.forall_mem_map.mpr h)
  rwa [List.map_map, List.map_map] at hpairs

theorem SameData.map_map {f g : String × Value → Value} {entries : List (String × Value)}
    (h : ∀ entry ∈ entries, SameData (f entry) (g entry)) :
    SameData (.map (entries.map fun entry => (entry.1, f entry)))
      (.map (entries.map fun entry => (entry.1, g entry))) := by
  have htriples := @SameData.map (entries.map fun entry => (entry.1, f entry, g entry))
    (List.forall_mem_map.mpr h)
  rwa [List.map_map, List.map_map] at htriples

theorem ofJson_settled_array (items : List Json) :
    ofJson (Json.array items).settled = array (items.map fun item => ofJson item.settled) := by
  rw [Json.settled, Json.settledItems_eq, ofJson, itemsOfJson_eq, List.map_map]
  rfl

/-- No member is lost if no name occurs twice. -/
theorem ofJson_settled_object {members : List (String × Json)} (h : (members.map Prod.fst).Nodup) :
    ofJson (Json.object members).settled =
      map (members.map fun member => (member.1, ofJson member.2.settled)) := by
  have hdistinct : Entries.Distinct (members.map fun member =>
      (member.1, ofJson member.2.settled)) := by
    rw [Entries.Distinct, Entries.keys, List.map_map]
    exact h
  rw [Json.settled, Json.settledMembers_eq, ofJson, membersOfJson_eq, List.map_map]
  exact congrArg map (Entries.ofList_eq_self hdistinct)

theorem sameData_segment (segment : PathSegment) :
    SameData (ofJson (segmentJson segment).settled) (ofSegment segment) := by
  cases segment with
  | key name => exact .string name
  | index n => exact .number (Number.same_ofInt_self n)

theorem sameData_path (path : List PathSegment) :
    SameData (ofJson (toJson (reference path)).settled) (reference path).plain := by
  have hnames : ["$$mdtype", "path"].Nodup := by decide
  have hsegments : SameData (ofJson (Json.array (path.map segmentJson)).settled)
      (.array (path.map ofSegment)) := by
    rw [ofJson_settled_array, List.map_map]
    exact SameData.array_map fun segment _ => sameData_segment segment
  have hobject := @ofJson_settled_object
    [("$$mdtype", .string "Variable"), ("path", .array (path.map segmentJson))] hnames
  rw [toJson, marker, hobject, plain]
  exact @SameData.map [("$$mdtype", string "Variable", string "Variable"), ("path", _, _)]
    (List.forall_mem_cons.mpr ⟨.string _, List.forall_mem_singleton.mpr hsegments⟩)

theorem sameData_entries (hdistinct : Entries.Distinct entries)
    (hentries : ∀ entry ∈ entries, SameData (ofJson entry.2.toJson.settled) entry.2.plain) :
    SameData (ofJson (Json.object (entriesJson entries)).settled)
      (.map (plainEntries entries)) := by
  have hnames : ((entriesJson entries).map Prod.fst).Nodup := by
    rw [entriesJson_eq, List.map_map]
    exact hdistinct
  rw [ofJson_settled_object hnames, entriesJson_eq, List.map_map, plainEntries_eq]
  exact SameData.map_map hentries

theorem sameData_call {name : String} (harguments : SameData
      (ofJson (Json.object (entriesJson entries)).settled) (.map (plainEntries entries))) :
    SameData (ofJson (toJson (call name entries)).settled) (call name entries).plain := by
  have hnames : ["$$mdtype", "name", "parameters"].Nodup := by decide
  have hobject := @ofJson_settled_object [("$$mdtype", .string "Function"), ("name", .string name),
    ("parameters", .object (entriesJson entries))] hnames
  rw [toJson, marker, hobject, plain]
  exact @SameData.map [("$$mdtype", string "Function", string "Function"),
    ("name", string name, string name), ("parameters", _, _)]
    (List.forall_mem_cons.mpr ⟨.string _, List.forall_mem_cons.mpr
      ⟨.string _, List.forall_mem_singleton.mpr harguments⟩⟩)

/-- A value comes back from JSON as the plain data that it becomes. -/
theorem IsExact.sameData (h : v.IsExact) (hdistinct : v.Distinct) :
    SameData (ofJson v.toJson.settled) v.plain := by
  induction h with
  | null => exact .null
  | bool b => exact .bool b
  | whole hn hi =>
      rw [toJson, numberJson_whole hn hi, plain, if_pos (isFinite_of_toInt? hn)]
      exact .number (Number.same_ofInt hn)
  | notFinite hn =>
      rw [toJson, numberJson_of_not_finite hn, Json.settled, plain, hn, if_neg Bool.false_ne_true]
      exact .null
  | string s => exact .string s
  | array _ ih =>
      have hdistincts := distinctItems_iff.mp hdistinct
      rw [toJson, itemsJson_eq, ofJson_settled_array, List.map_map, plain, plainItems_eq]
      exact SameData.array_map fun item hitem => ih item hitem (hdistincts item hitem)
  | map _ ih =>
      have hdistincts := distinctEntries_iff.mp hdistinct.2
      exact sameData_entries hdistinct.1 fun entry hentry =>
        ih entry hentry (hdistincts entry hentry)
  | reference => exact sameData_path _
  | call name _ ih =>
      have hdistincts := distinctEntries_iff.mp hdistinct.2
      exact sameData_call (sameData_entries hdistinct.1 fun entry hentry =>
        ih entry hentry (hdistincts entry hentry))
  | custom _ text => exact .string text

theorem distinct_plainEntries (hdistinct : Entries.Distinct entries)
    (hentries : ∀ entry ∈ entries, entry.2.plain.Distinct) :
    (map (plainEntries entries)).Distinct := by
  rw [plainEntries_eq]
  constructor
  · rw [Entries.Distinct, Entries.keys, List.map_map]
    exact hdistinct
  · exact distinctEntries_iff.mpr (List.forall_mem_map.mpr hentries)

/-- Plain data repeats no key either. -/
theorem IsExact.distinct_plain (h : v.IsExact) (hdistinct : v.Distinct) : v.plain.Distinct := by
  induction h with
  | null => trivial
  | bool b => trivial
  | whole hn hi =>
      rw [plain, if_pos (isFinite_of_toInt? hn)]
      trivial
  | notFinite hn =>
      rw [plain, hn, if_neg Bool.false_ne_true]
      trivial
  | string s => trivial
  | array _ ih =>
      have hdistincts := distinctItems_iff.mp hdistinct
      rw [plain, plainItems_eq]
      exact distinctItems_iff.mpr (List.forall_mem_map.mpr fun item hitem =>
        ih item hitem (hdistincts item hitem))
  | map _ ih =>
      have hdistincts := distinctEntries_iff.mp hdistinct.2
      exact distinct_plainEntries hdistinct.1 fun entry hentry =>
        ih entry hentry (hdistincts entry hentry)
  | @reference path _ =>
      have hsegments : (Value.array (path.map ofSegment)).Distinct := by
        refine distinctItems_iff.mpr (List.forall_mem_map.mpr fun segment _ => ?_)
        cases segment <;> trivial
      have hnames : ["$$mdtype", "path"].Nodup := by decide
      exact ⟨hnames, trivial, hsegments, trivial⟩
  | call name _ ih =>
      have hdistincts := distinctEntries_iff.mp hdistinct.2
      have harguments := distinct_plainEntries hdistinct.1 fun entry hentry =>
        ih entry hentry (hdistincts entry hentry)
      have hnames : ["$$mdtype", "name", "parameters"].Nodup := by decide
      exact ⟨hnames, trivial, trivial, harguments, trivial⟩
  | custom _ text => trivial

theorem sameItems_map {pairs : List (Value × Value)} (h : ∀ p ∈ pairs, p.1.same p.2 = true) :
    sameItems (pairs.map Prod.fst) (pairs.map Prod.snd) = true := by
  induction pairs with
  | nil => rfl
  | cons p pairs ih =>
      have ⟨hp, hpairs⟩ := List.forall_mem_cons.mp h
      rw [List.map_cons, List.map_cons, sameItems, hp, ih hpairs]
      rfl

theorem sameEntries_iff {others : Entries Value} : sameEntries entries others = true ↔
    ∀ entry ∈ entries, ∃ w, others.get? entry.1 = some w ∧ entry.2.same w = true := by
  induction entries with
  | nil => simp [sameEntries]
  | cons entry entries ih =>
      rw [sameEntries, Bool.and_eq_true, ih, List.forall_mem_cons]
      cases others.get? entry.1 <;> simp

/-- Plain data that is the same in order is the same. -/
theorem SameData.same (h : SameData v w) (hdistinct : w.Distinct) : v.same w = true := by
  induction h with
  | null => rfl
  | bool b => exact beq_self_eq_true b
  | number hn => exact hn
  | string s => exact beq_self_eq_true s
  | array _ ih =>
      have hdistincts := List.forall_mem_map.mp (distinctItems_iff.mp hdistinct)
      exact sameItems_map fun p hp => ih p hp (hdistincts p hp)
  | map _ ih =>
      have hdistincts := List.forall_mem_map.mp (distinctEntries_iff.mp hdistinct.2)
      rw [Value.same, List.length_map, List.length_map, beq_self_eq_true, Bool.true_and]
      refine sameEntries_iff.mpr (List.forall_mem_map.mpr fun e he => ⟨e.2.2, ?_, ?_⟩)
      · exact Entries.get?_of_mem hdistinct.1 (List.mem_map.mpr ⟨e, he, rfl⟩)
      · exact ih e he (hdistincts e he)

/-- Plain data is what it becomes. -/
theorem IsPlain.plain_eq_self (h : v.IsPlain) : v.plain = v := by
  induction h with
  | number hn => rw [plain, if_pos hn]
  | array _ ih => rw [plain, plainItems_eq, List.map_congr_left ih, List.map_id']
  | @map entries _ ih =>
      have hentries : ∀ entry ∈ entries, (entry.1, entry.2.plain) = entry := fun entry hentry =>
        Prod.ext rfl (ih entry hentry)
      rw [plain, plainEntries_eq, List.map_congr_left hentries, List.map_id']
  | _ => rfl

/-- A value comes back from its JSON text as the plain data that it becomes, and plain data as
itself. -/
theorem ofJson_ofText?_compress (v : Value) (hdistinct : v.Distinct) (hexact : v.IsExact)
    (hdepth : v.toJson.depth ≤ Json.nestingLimit) :
    ∃ w, (Json.ofText? v.toJson.compress).map ofJson = some w ∧ w.same v.plain = true ∧
      SameData w v.plain ∧ (v.IsPlain → v.plain = v) := by
  have hread := Json.ofText?_compress hexact.integral_toJson hdepth
  have hdata := hexact.sameData hdistinct
  refine ⟨ofJson v.toJson.settled, ?_, ?_, hdata, IsPlain.plain_eq_self⟩
  · rw [hread, Option.map_some]
  · exact hdata.same (hexact.distinct_plain hdistinct)

/-- A negative zero comes back without its sign, which is the same number. -/
theorem ofJson_ofText?_compress_nested :
    let v := Value.map [("k\n", .array [.number (.ofRank true 0), .number (.infinite true)]),
      ("é", .call "f" [("0", .custom 7 "\""), ("p", .reference [.key "a", .index 3])])]
    v.Distinct ∧ v.IsExact ∧ v.toJson.depth ≤ Json.nestingLimit ∧
      ∃ w, (Json.ofText? v.toJson.compress).map ofJson = some w ∧ w.same v.plain = true ∧
        SameData w v.plain ∧ (v.IsPlain → v.plain = v) := by
  intro v
  have hdistinct : v.Distinct := by
    simp [v, Distinct, DistinctEntries, DistinctItems, Entries.Distinct, Entries.keys]
  have hzero : Number.toInt? (.ofRank true 0) = some 0 := by decide +kernel
  have hitems : IsExact (.array [.number (.ofRank true 0), .number (.infinite true)]) :=
    .array (List.forall_mem_cons.mpr
      ⟨.whole hzero (by decide), List.forall_mem_singleton.mpr (.notFinite rfl)⟩)
  have hpath : ∀ n, .index n ∈ [PathSegment.key "a", .index 3] → n ≤ exactBound := by
    intro n hn
    have hthree : n = 3 := by simpa using hn
    rw [hthree]
    decide
  have hcall : IsExact (.call "f" [("0", .custom 7 "\""), ("p", .reference [.key "a", .index 3])]) :=
    .call "f" (List.forall_mem_cons.mpr
      ⟨.custom 7 "\"", List.forall_mem_singleton.mpr (.reference hpath)⟩)
  have hexact : v.IsExact :=
    .map (List.forall_mem_cons.mpr ⟨hitems, List.forall_mem_singleton.mpr hcall⟩)
  have hdepth : v.toJson.depth ≤ Json.nestingLimit := by decide +kernel
  exact ⟨hdistinct, hexact, hdepth, ofJson_ofText?_compress v hdistinct hexact hdepth⟩

end Value

end TaggedText
