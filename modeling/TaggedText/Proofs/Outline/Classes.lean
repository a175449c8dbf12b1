import TaggedText.Proofs.Outline.Mirroring

/-!
# The classes of a tag

Every class of a tag is to be an entry of the map under the name of classes. An attribute may also
set that name to a value of its own, which replaces all classes before it. Classes behind it are
added to the value if it is a map. If it is anything else they are dropped, and the value stands.
-/
namespace TaggedText

open Outline

/-- Sets the name of classes to a value of its own. -/
def Attribute.SetsClasses (a : Attribute) : Prop :=
  a.kind ≠ .classed ∧ a.name = classKey

instance : DecidablePred Attribute.SetsClasses := fun a =>
  inferInstanceAs (Decidable (a.kind ≠ .classed ∧ a.name = classKey))

/-- The value that the name of classes was last set to. -/
def lastSet? (list : List Attribute) : Option Value :=
  ((list.filter fun a => a.SetsClasses).getLast?).map Attribute.value

/-- Classes have a place to go: a map, or one that is still to be made. -/
def HasRoom (place : Option Value) : Prop :=
  ∀ v ∈ place, v.map?.isSome

/-- The class is in the map under the name of classes. -/
def Bindings.Gathers (attributes : Bindings) (c : String) : Prop :=
  ∃ classes : Entries Value, attributes.get? classKey = some (.map classes) ∧
    classes.get? c = some (.bool true)

/-- The name and the attributes of a tag that a token makes. -/
def Lexeme.tag? : Lexeme → Option (String × List Attribute)
  | .directive _ (.ok (.opening name list)) => some (name, list)
  | .directive _ (.ok (.selfClosing name list)) => some (name, list)
  | _ => none

variable {attributes : Bindings} {before after list : List Attribute} {a : Attribute} {v : Value}
  {c : String}

theorem get?_addAttribute_of_sets (h : a.SetsClasses) :
    (addAttribute attributes a).get? classKey = some a.value := by
  obtain ⟨hkind, hname⟩ := h
  unfold addAttribute
  split <;> simp_all [Entries.get?_insert]

theorem get?_addAttribute_of_other (hkind : a.kind ≠ .classed) (h : ¬ a.SetsClasses) :
    (addAttribute attributes a).get? classKey = attributes.get? classKey := by
  have hname : a.name ≠ classKey := fun hname => h ⟨hkind, hname⟩
  unfold addAttribute
  split <;> simp_all [Entries.get?_insert]

/-- Where there is room, a class is gathered beside those that are there. -/
theorem exists_classes_addAttribute (hkind : a.kind = .classed)
    (hroom : HasRoom (attributes.get? classKey)) :
    ∃ classes : Entries Value, (addAttribute attributes a).get? classKey = some (.map classes) ∧
      ∀ c, a.value = .string c ∨ attributes.Gathers c → classes.get? c = some (.bool true) := by
  obtain ⟨old, hold⟩ : ∃ old : Entries Value,
      (attributes.get? classKey).getD (.map []) = .map old := by
    cases hplace : attributes.get? classKey with
    | none => exact ⟨[], rfl⟩
    | some v =>
        have hmap := hroom v hplace
        cases v <;> simp_all [Value.map?]
  have hgathers : ∀ c, attributes.Gathers c → old.get? c = some (.bool true) := by
    rintro c ⟨classes, hclasses, hc⟩
    simp_all
  cases hvalue : a.value with
  | string name =>
      refine ⟨Entries.insert name (.bool true) old, ?_, fun c hc => ?_⟩
      · simp [addAttribute, hkind, hold, hvalue, Entries.get?_insert]
      · rw [Entries.get?_insert]
        split
        next => rfl
        next hne => exact hgathers c (hc.resolve_left (by simpa using hne))
  | _ =>
      refine ⟨old, ?_, fun c hc => hgathers c (hc.resolve_left (by simp))⟩
      simp [addAttribute, hkind, hold, hvalue, Entries.get?_insert]

theorem Bindings.Gathers.addAttribute (h : attributes.Gathers c) (ha : ¬ a.SetsClasses) :
    Gathers (addAttribute attributes a) c := by
  obtain ⟨classes, hclasses, hc⟩ := h
  by_cases hkind : a.kind = .classed
  · have hroom : HasRoom (attributes.get? classKey) := by
      simp [HasRoom, hclasses, Value.map?]
    obtain ⟨more, hmore, hgathered⟩ := exists_classes_addAttribute hkind hroom
    exact ⟨more, hmore, hgathered c (.inr ⟨classes, hclasses, hc⟩)⟩
  · exact ⟨classes, by rw [get?_addAttribute_of_other hkind ha, hclasses], hc⟩

theorem HasRoom.addAttribute (h : HasRoom (attributes.get? classKey)) (ha : ¬ a.SetsClasses) :
    HasRoom ((addAttribute attributes a).get? classKey) := by
  by_cases hkind : a.kind = .classed
  · obtain ⟨classes, hclasses, -⟩ := exists_classes_addAttribute hkind h
    simp [HasRoom, hclasses, Value.map?]
  · rwa [get?_addAttribute_of_other hkind ha]

theorem get?_addAttribute_of_noRoom (hplace : attributes.get? classKey = some v)
    (hv : v.map? = none) (ha : ¬ a.SetsClasses) :
    (addAttribute attributes a).get? classKey = some v := by
  by_cases hkind : a.kind = .classed
  · -- The place is taken, so the class is dropped.
    cases v <;> simp_all [TaggedText.addAttribute, Value.map?, Entries.get?_insert]
  · rw [get?_addAttribute_of_other hkind ha, hplace]

theorem attributeBindings_append (list : List Attribute) (a : Attribute) :
    attributeBindings (list ++ [a]) = addAttribute (attributeBindings list) a := by
  simp [attributeBindings]

theorem lastSet?_append (list : List Attribute) (a : Attribute) :
    lastSet? (list ++ [a]) = if a.SetsClasses then some a.value else lastSet? list := by
  by_cases ha : a.SetsClasses <;> simp [lastSet?, List.filter_append, ha]

theorem hasRoom_attributeBindings (h : HasRoom (lastSet? list)) :
    HasRoom ((attributeBindings list).get? classKey) := by
  induction list using List.reverseRecOn with
  | nil => simp [attributeBindings, Entries.get?, HasRoom]
  | append_singleton list a ih =>
      rw [lastSet?_append] at h
      rw [attributeBindings_append]
      split at h
      next hsets => rwa [get?_addAttribute_of_sets hsets]
      next hsets => exact (ih h).addAttribute hsets

theorem get?_attributeBindings_of_noRoom (h : lastSet? list = some v) (hv : v.map? = none) :
    (attributeBindings list).get? classKey = some v := by
  induction list using List.reverseRecOn with
  | nil => simp [lastSet?] at h
  | append_singleton list a ih =>
      rw [lastSet?_append] at h
      rw [attributeBindings_append]
      split at h
      next hsets => rw [get?_addAttribute_of_sets hsets, h]
      next hsets => exact get?_addAttribute_of_noRoom (ih h) hv hsets

theorem lastSet?_append_of_not (h : ∀ d ∈ after, ¬ d.SetsClasses) :
    lastSet? (list ++ after) = lastSet? list := by
  have hnone : after.filter (fun d => d.SetsClasses) = [] := by simpa using h
  rw [lastSet?, lastSet?, List.filter_append, hnone, List.append_nil]

theorem gathers_attributeBindings (hkind : a.kind = .classed) (hvalue : a.value = .string c)
    (hafter : ∀ d ∈ after, ¬ d.SetsClasses) (hroom : HasRoom (lastSet? before)) :
    (attributeBindings (before ++ a :: after)).Gathers c := by
  induction after using List.reverseRecOn with
  | nil =>
      obtain ⟨classes, hclasses, hgathered⟩ :=
        exists_classes_addAttribute hkind (hasRoom_attributeBindings hroom)
      rw [attributeBindings_append]
      exact ⟨classes, hclasses, hgathered c (.inl hvalue)⟩
  | append_singleton after d ih =>
      obtain ⟨hinit, hlast⟩ := List.forall_mem_append.mp hafter
      rw [← List.cons_append, ← List.append_assoc, attributeBindings_append]
      exact (ih hinit).addAttribute (hlast d (List.mem_singleton_self d))

theorem get?_attributeBindings_dropped (hkind : a.kind = .classed)
    (hafter : ∀ d ∈ after, ¬ d.SetsClasses) (h : lastSet? before = some v) (hv : v.map? = none) :
    (attributeBindings (before ++ a :: after)).get? classKey = some v := by
  have hall : ∀ d ∈ a :: after, ¬ d.SetsClasses :=
    List.forall_mem_cons.mpr ⟨fun ha => ha.1 hkind, hafter⟩
  exact get?_attributeBindings_of_noRoom ((lastSet?_append_of_not hall).trans h) hv

theorem Lexeme.attributes_content {lexeme : Lexeme} {name : String}
    (h : lexeme.tag? = some (name, list)) :
    lexeme.content.kind = .tag ∧ lexeme.content.tag = some name ∧
      lexeme.content.attributes = attributeBindings list := by
  unfold Lexeme.tag? at h
  split at h
  next => cases h; exact ⟨rfl, rfl, rfl⟩
  next => cases h; exact ⟨rfl, rfl, rfl⟩
  next => cases h

theorem Outlined.exists_tag {lexemes : List Lexeme} {document : Document} {lexeme : Lexeme}
    {k : Nat} {name : String} (h : Outlined lexemes document) (hlexeme : lexemes[k]? = some lexeme)
    (htag : lexeme.tag? = some (name, list)) :
    ∃ node, document.tree.get? (nodeAt lexemes k) = some node ∧ node.content.kind = .tag ∧
      node.content.tag = some name ∧ node.content.attributes = attributeBindings list := by
  have hmakes : makesNode (openTags (lexemes.take k)) lexeme = true := by
    unfold Lexeme.tag? at htag
    split at htag
    next => rfl
    next => rfl
    next => cases htag
  obtain ⟨node, hnode, -, hholds⟩ := h.node k (mem_makers.mpr ⟨_, hlexeme, hmakes⟩) lexeme hlexeme
  obtain ⟨hkind, hname, hattributes⟩ := hholds.made
  obtain ⟨hkind', hname', hattributes'⟩ := Lexeme.attributes_content htag
  exact ⟨node, hnode, hkind.trans hkind', hname.trans hname', hattributes.trans hattributes'⟩

/-- A class that no later attribute replaces is gathered in the node of its tag if there was room
for it. If the attributes before it last set the name of classes to anything but a map, that value
stands, and the class is lost. -/
theorem exists_gathered (tokens : List Token) :
    ∃ document, Document.ofTokens tokens = .ok document ∧
      ∀ k lexeme name before a after c, (tokens.map Token.lexeme)[k]? = some lexeme →
        lexeme.tag? = some (name, before ++ a :: after) → a.kind = .classed →
        a.value = .string c → (∀ d ∈ after, ¬ d.SetsClasses) →
        ∃ node, document.tree.get? (nodeAt (tokens.map Token.lexeme) k) = some node ∧
          node.content.kind = .tag ∧ node.content.tag = some name ∧
          (HasRoom (lastSet? before) → node.content.attributes.Gathers c) ∧
          ∀ v, lastSet? before = some v → v.map? = none →
            node.content.attributes.get? classKey = some v := by
  obtain ⟨document, hdocument, houtlined⟩ := exists_outlined tokens
  refine ⟨document, hdocument, ?_⟩
  intro k lexeme name before a after c hlexeme htag hkind hvalue hafter
  obtain ⟨node, hnode, hnodeKind, hname, hattributes⟩ := houtlined.exists_tag hlexeme htag
  refine ⟨node, hnode, hnodeKind, hname, ?_⟩
  rw [hattributes]
  exact ⟨gathers_attributeBindings hkind hvalue hafter,
    fun v => get?_attributeBindings_dropped hkind hafter⟩

/-- A tag with the attributes, at the beginning of a document. -/
def boxOf (list : List Attribute) : Token :=
  ⟨.directive ⟨"", (0, 1), (0, 0), false⟩ (.ok (.selfClosing "box" list)), 0, 0⟩

/-- Behind a map a class is gathered, and behind a string it is lost. -/
theorem exists_gathered_box :
    ∃ document first second,
      Document.ofTokens [boxOf [.plain "class" (.map [("b", .null)]), .classed "a", .id "main"],
        boxOf [.plain "class" (.string "x"), .classed "a"]] = .ok document ∧
      document.tree.get? 1 = some first ∧ first.content.attributes.Gathers "a" ∧
      document.tree.get? 2 = some second ∧
      second.content.attributes.get? classKey = some (.string "x") := by
  obtain ⟨document, hdocument, hgathered⟩ := exists_gathered
    [boxOf [.plain "class" (.map [("b", .null)]), .classed "a", .id "main"],
      boxOf [.plain "class" (.string "x"), .classed "a"]]
  obtain ⟨first, hfirst, -, -, hroom, -⟩ := hgathered 0 _ "box"
    [.plain "class" (.map [("b", .null)])] (.classed "a") [.id "main"] "a" rfl rfl rfl rfl
    (by decide)
  obtain ⟨second, hsecond, -, -, -, hdropped⟩ := hgathered 1 _ "box"
    [.plain "class" (.string "x")] (.classed "a") [] "a" rfl rfl rfl rfl (by simp)
  have hmap : HasRoom (some (.map [("b", .null)])) := by simp [HasRoom, Value.map?]
  exact ⟨document, first, second, hdocument, hfirst, hroom hmap, hsecond, hdropped _ rfl rfl⟩

/-- The one class of this tag is lost, although no attribute comes after it. -/
theorem not_gathers_string :
    Grammar.standard "box class=\"x\" .a".toList =
        .ok (.opening "box" [.plain "class" (.string "x"), .classed "a"]) ∧
      ∃ document node,
        Document.ofText "\x7b% box class=\"x\" .a %\x7d\x7b% /box %\x7d" = .ok document ∧
        document.tree.get? 1 = some node ∧ node.content.tag = some "box" ∧
        ¬ node.content.attributes.Gathers "a" := by
  have hsome : ((Document.ofText
      "\x7b% box class=\"x\" .a %\x7d\x7b% /box %\x7d").toOption.map fun document =>
        (document.tree.get? 1).map fun node => (node.content.tag,
          (node.content.attributes.get? classKey).map Value.string?)) =
      some (some (some "box", some (some "x"))) := by
    decide +kernel
  obtain ⟨document, hdocument, hshown⟩ := Option.map_eq_some_iff.mp hsome
  obtain ⟨node, hnode, hshown⟩ := Option.map_eq_some_iff.mp hshown
  obtain ⟨htag, hplace⟩ := Prod.mk.inj hshown
  refine ⟨rfl, document, node, toOption_eq_some_iff.mp hdocument, hnode, htag, ?_⟩
  rintro ⟨classes, hclasses, -⟩
  simp [hclasses, Value.string?] at hplace

end TaggedText
