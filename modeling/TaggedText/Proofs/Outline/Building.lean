import TaggedText.Proofs.Outline
import TaggedText.Proofs.Outline.Changes
import TaggedText.Proofs.Preorder

/-!
# Building a document by its outline

After any tokens the draft is what the outline of these tokens says: the open tags are the same, the
nodes stand in document order, and each is owned by the node that its token goes below. What a node
holds is what its token gave it, or that with the closing directive noted. Annotations are left out
of account.

A new node comes last in document order, since the open tags are the way down the right edge of the
tree. No token is refused, so the whole list leads to a document.
-/
namespace TaggedText

open Links Outline

/-- What a node holds besides annotations. -/
def Content.bare (content : Content) : Content :=
  { content with annotations := [] }

/-- What the node of a token holds when it is made. -/
def Lexeme.content : Lexeme → Content
  | .text source => .ofText source
  | .directive d (.ok (.opening name attributes)) => .ofTag d name attributes
  | .directive d (.ok (.selfClosing name attributes)) => .ofTag d name attributes
  | .directive d (.ok (.closing name)) => .ofProblem d (.unexpectedClosing name d.location)
  | .directive d (.ok (.annotating _)) => d.content .node
  | .directive d (.error e) => .ofProblem d (.syntaxError e)

theorem Lexeme.bare_content (lexeme : Lexeme) : lexeme.content.bare = lexeme.content := by
  unfold Lexeme.content
  split <;> rfl

/-- What the node of the token at a position holds after the given tokens. -/
def Outline.Holds (lexemes : List Lexeme) (k : Nat) (lexeme : Lexeme) (content : Content) : Prop :=
  (∃ m closing, ClosedBy lexemes k m closing ∧ content = lexeme.content.closedBy closing) ∨
    (∀ m closing, ¬ ClosedBy lexemes k m closing) ∧ content = lexeme.content

/-- A tree whose nodes are the root and those of the tokens, in document order. What the node of a
token holds is said by `holds`, for the position and the token. -/
structure Shaped (lexemes : List Lexeme) (holds : Nat → Lexeme → Content → Prop) (tree : Tree) :
    Prop where
  size_eq : tree.size = (makers lexemes).length + 1
  serial_eq : ∀ id node, tree.get? id = some node → node.serial = id
  root_node : ∃ node, tree.get? 0 = some node ∧ node.parent = none ∧
    node.content.bare = { kind := .document }
  node : ∀ k ∈ makers lexemes, ∀ lexeme, lexemes[k]? = some lexeme →
    ∃ node, tree.get? (nodeAt lexemes k) = some node ∧
      node.parent = some (ownerAt lexemes k) ∧ holds k lexeme node.content.bare
  preorder : Preorder tree.ownedBy [0] (List.range tree.size)

/-- A draft that is what the outline of the tokens so far says. -/
structure Drafted (lexemes : List Lexeme) (draft : Draft) : Prop
    extends Shaped lexemes (Holds lexemes) draft.tree where
  root_eq : draft.root = 0
  opened_eq : draft.opened = openNodes lexemes
  nextSerial_eq : draft.tree.nextSerial = draft.tree.size
  spine : Spine draft.tree.ownedBy 0 (draft.opened ++ [0])

variable {lexemes : List Lexeme} {lexeme : Lexeme} {draft : Draft} {tree : Tree}
variable {change : NodeId → Content → Content} {content : Content} {name : String} {k : Nat}
variable {holds holds' : Nat → Lexeme → Content → Prop}

theorem Outline.holds_append (hne : ∀ closing name,
      lexeme = .directive closing (.ok (.closing name)) →
        (openTags lexemes).head? ≠ some (k, name)) (made : Lexeme) :
    Holds (lexemes ++ [lexeme]) k made content ↔ Holds lexemes k made content := by
  simp only [Holds, closedBy_append_of_ne hne]

/-- A node goes on holding what it should when a directive closes the innermost tag. -/
theorem Outline.holds_closing {directive : Directive} {made : Lexeme} {i : Nat}
    (hhead : (openTags lexemes).head? = some (i, name)) (h : Holds lexemes k made content.bare) :
    Holds (lexemes ++ [.directive directive (.ok (.closing name))]) k made
      (if nodeAt lexemes i = nodeAt lexemes k then content.closedBy directive
        else content).bare := by
  have hmem : (i, name) ∈ openTags lexemes := List.mem_of_mem_head? hhead
  simp only [nodeAt_inj (mem_makers_of_mem_openTags hmem)]
  by_cases hki : i = k
  · subst hki
    rcases h with ⟨m, closing, hclosed, -⟩ | ⟨-, hcontent⟩
    · exact absurd hclosed (not_closedBy_of_mem hmem)
    · have hclosed : ClosedBy (lexemes ++ [.directive directive (.ok (.closing name))]) i
          lexemes.length directive := closedBy_append.mpr (.inr ⟨rfl, name, rfl, hhead⟩)
      refine .inl ⟨lexemes.length, directive, hclosed, ?_⟩
      rw [if_pos rfl, ← hcontent]
      rfl
  · rw [if_neg hki, holds_append fun closing other _ heq => ?_]
    · exact h
    · rw [hhead] at heq
      exact hki (Prod.mk.inj (Option.some.inj heq)).1

namespace Shaped

/-- An edit changes nothing but what nodes hold. -/
theorem edit {tree' : Tree} (h : Shaped lexemes holds tree) (hedit : Tree.Edited tree change tree')
    (hroot : ∀ content, (change 0 content).bare = content.bare)
    (hholds : ∀ k ∈ makers lexemes, ∀ made content, lexemes[k]? = some made →
      holds k made content.bare → holds' k made (change (nodeAt lexemes k) content).bare) :
    Shaped lexemes holds' tree' where
  size_eq := hedit.size_eq.trans h.size_eq
  serial_eq := by
    intro id node hnode
    rw [hedit.get?_eq] at hnode
    obtain ⟨old, hold, rfl⟩ := Option.map_eq_some_iff.mp hnode
    exact h.serial_eq id old hold
  root_node := by
    obtain ⟨node, hnode, hparent, hcontent⟩ := h.root_node
    exact ⟨_, hedit.get?_of_get? hnode, hparent, (hroot node.content).trans hcontent⟩
  node := by
    intro k hk made hmade
    obtain ⟨node, hnode, hparent, hnow⟩ := h.node k hk made hmade
    exact ⟨_, hedit.get?_of_get? hnode, hparent, hholds k hk made node.content hmade hnow⟩
  preorder := by
    rw [hedit.ownedBy_eq, hedit.size_eq]
    exact h.preorder

/-- A token that makes no node leaves the nodes that are said to be there. -/
theorem append (h : Shaped lexemes holds tree)
    (hmakes : makesNode (openTags lexemes) lexeme = false) :
    Shaped (lexemes ++ [lexeme]) holds tree := by
  have hmakers : makers (lexemes ++ [lexeme]) = makers lexemes := by
    rw [makers_append, hmakes, if_neg Bool.false_ne_true, List.append_nil]
  refine ⟨?_, h.serial_eq, h.root_node, fun k hk made hmade => ?_, h.preorder⟩
  · rw [hmakers, h.size_eq]
  · rw [hmakers] at hk
    have hlt := lt_length_of_mem_makers hk
    rw [List.getElem?_append_left hlt] at hmade
    rw [nodeAt_append hk, ownerAt_append (Nat.le_of_lt hlt)]
    exact h.node k hk made hmade

end Shaped

namespace Drafted

theorem exists_spine (h : Drafted lexemes draft) :
    ∃ above, draft.opened ++ [0] = draft.current :: above := by
  rw [Draft.current, h.root_eq]
  cases draft.opened with
  | nil => exact ⟨[], rfl⟩
  | cons id opened => exact ⟨opened ++ [0], rfl⟩

theorem lt_size (h : Drafted lexemes draft) {id : NodeId} (hid : id ∈ draft.opened ++ [0]) :
    id < draft.tree.size :=
  List.mem_range.mp ((h.spine.rightEdge hid).mem_order h.preorder)

theorem current_mem (h : Drafted lexemes draft) : draft.current ∈ draft.opened ++ [0] := by
  obtain ⟨above, habove⟩ := h.exists_spine
  exact habove ▸ List.mem_cons_self

theorem current_lt (h : Drafted lexemes draft) : draft.current < draft.tree.size :=
  h.lt_size h.current_mem

theorem current_eq (h : Drafted lexemes draft) (lexeme : Lexeme) :
    draft.current = ownerAt (lexemes ++ [lexeme]) lexemes.length := by
  rw [ownerAt_length, Draft.current, h.opened_eq, h.root_eq]

/-- The open tags and the new node are the way down the right edge. -/
theorem spine_addLeaf (h : Drafted lexemes draft)
    (hmakes : makesNode (openTags lexemes) lexeme = true) (content : Content) :
    Spine (draft.tree.addLeaf draft.current content).ownedBy 0
      (openNodes (lexemes ++ [lexeme]) ++ [0]) := by
  obtain ⟨above, habove⟩ := h.exists_spine
  have hold : Spine (draft.tree.addLeaf draft.current content).ownedBy 0
      (draft.current :: above) := by
    have hspine := h.spine
    rw [habove] at hspine
    refine hspine.congr fun id hid => ?_
    have hne : id ≠ draft.current := by
      rintro rfl
      exact (List.nodup_cons.mp hspine.nodup).1 hid
    rw [Tree.ownedBy_addLeaf h.current_lt, Function.update_of_ne hne]
  rcases openNodes_of_makesNode hmakes with heq | heq
  · rwa [heq, ← h.opened_eq, habove]
  · rw [heq, ← h.opened_eq, ← h.size_eq, List.cons_append, habove]
    refine .deeper hold ?_ fun hin => ?_
    · rw [Tree.ownedBy_addLeaf h.current_lt, Function.update_self, List.getLast?_concat]
    · rw [← habove] at hin
      exact Nat.lt_irrefl _ (h.lt_size hin)

/-- The new node comes last in document order. -/
theorem preorder_addLeaf (h : Drafted lexemes draft) (content : Content) :
    Preorder (draft.tree.addLeaf draft.current content).ownedBy [0]
      (List.range (draft.tree.size + 1)) := by
  rw [Tree.ownedBy_addLeaf h.current_lt, List.range_succ]
  refine h.preorder.snoc List.nodup_range (h.spine.rightEdge h.current_mem) ?_ ?_
  · exact fun hin => Nat.lt_irrefl _ (List.mem_range.mp hin)
  · exact Tree.ownedBy_eq_nil_of_size_le (Nat.le_refl _)

theorem shaped_addLeaf (h : Drafted lexemes draft)
    (hmakes : makesNode (openTags lexemes) lexeme = true) :
    Shaped (lexemes ++ [lexeme]) (Holds (lexemes ++ [lexeme]))
      (draft.tree.addLeaf draft.current lexeme.content) where
  size_eq := by
    rw [Tree.size_addLeaf, makers_append, if_pos hmakes, List.length_append, h.size_eq,
      List.length_singleton]
  serial_eq := by
    intro id node hnode
    have hlt := Tree.lt_size_of_get? hnode
    rw [Tree.size_addLeaf] at hlt
    rcases Nat.lt_or_eq_of_le (Nat.le_of_lt_succ hlt) with hid | rfl
    · rw [Tree.get?_addLeaf_of_lt hid] at hnode
      obtain ⟨old, hold, rfl⟩ := Option.map_eq_some_iff.mp hnode
      have hserial := h.serial_eq id old hold
      split <;> exact hserial
    · rw [Tree.get?_addLeaf_self h.current_lt] at hnode
      obtain rfl := Option.some.inj hnode
      exact h.nextSerial_eq
  root_node := by
    obtain ⟨node, hnode, hparent, hcontent⟩ := h.root_node
    refine ⟨_, Tree.get?_addLeaf_of_get? hnode _ _, ?_, ?_⟩
    · split <;> exact hparent
    · split <;> exact hcontent
  node := by
    intro k hk made hmade
    rw [makers_append, if_pos hmakes, List.mem_append, List.mem_singleton] at hk
    rcases hk with hk | rfl
    · have hlt := lt_length_of_mem_makers hk
      rw [List.getElem?_append_left hlt] at hmade
      obtain ⟨node, hnode, hparent, hholds⟩ := h.node k hk made hmade
      rw [nodeAt_append hk, ownerAt_append (Nat.le_of_lt hlt)]
      refine ⟨_, Tree.get?_addLeaf_of_get? hnode _ _, ?_, ?_⟩
      · split <;> exact hparent
      · rw [holds_append fun _ _ => head?_ne_of_makesNode hmakes]
        split <;> exact hholds
    · rw [List.getElem?_concat_length] at hmade
      obtain rfl := Option.some.inj hmade
      rw [nodeAt_length hmakes, ← h.size_eq]
      refine ⟨_, Tree.get?_addLeaf_self h.current_lt _, ?_, .inr ⟨fun m closing hclosed => ?_, ?_⟩⟩
      · rw [← h.current_eq]
      · rw [closedBy_append_of_ne fun _ _ => head?_ne_of_makesNode hmakes] at hclosed
        exact not_closedBy_length hclosed
      · exact lexeme.bare_content
  preorder := by
    rw [Tree.size_addLeaf]
    exact h.preorder_addLeaf lexeme.content

theorem grow (h : Drafted lexemes draft)
    (hmakes : makesNode (openTags lexemes) lexeme = true) :
    Drafted (lexemes ++ [lexeme])
      { draft with
        tree := draft.tree.addLeaf draft.current lexeme.content
        opened := openNodes (lexemes ++ [lexeme]) } where
  toShaped := h.shaped_addLeaf hmakes
  root_eq := h.root_eq
  opened_eq := rfl
  nextSerial_eq := by
    rw [Tree.nextSerial_addLeaf, Tree.size_addLeaf, h.nextSerial_eq]
  spine := h.spine_addLeaf hmakes lexeme.content

theorem edit (h : Drafted lexemes draft) (hedit : Tree.Edited draft.tree change tree)
    (hmakes : makesNode (openTags lexemes) lexeme = false)
    (hopened : openNodes (lexemes ++ [lexeme]) = draft.opened ∨
      openNodes (lexemes ++ [lexeme]) = draft.opened.tail)
    (hroot : ∀ content, (change 0 content).bare = content.bare)
    (hholds : ∀ k ∈ makers lexemes, ∀ made content, lexemes[k]? = some made →
      Holds lexemes k made content.bare →
        Holds (lexemes ++ [lexeme]) k made (change (nodeAt lexemes k) content).bare) :
    Drafted (lexemes ++ [lexeme])
      { draft with tree := tree, opened := openNodes (lexemes ++ [lexeme]) } where
  toShaped := (h.toShaped.edit hedit hroot hholds).append hmakes
  root_eq := h.root_eq
  opened_eq := rfl
  nextSerial_eq := by
    rw [hedit.nextSerial_eq, hedit.size_eq, h.nextSerial_eq]
  spine := by
    rw [hedit.ownedBy_eq]
    rcases hopened with heq | heq
    · rw [heq]
      exact h.spine
    · rw [heq]
      have hspine := h.spine
      cases hopen : draft.opened with
      | nil => exact .root
      | cons id opened =>
          rw [hopen, List.cons_append] at hspine
          exact hspine.tail (by simp)

/-- The draft and the outline agree on what a closing directive closes. -/
theorem matching?_eq (h : Drafted lexemes draft) (name : String) :
    draft.matching? name =
      if (openTags lexemes).head?.map Prod.snd = some name then draft.opened.head? else none := by
  rw [Draft.matching?, h.opened_eq, openNodes, List.head?_map]
  cases htag : (openTags lexemes).head? with
  | none => rfl
  | some tag =>
      have hmem : tag ∈ openTags lexemes := List.mem_of_mem_head? htag
      obtain ⟨d, attributes, hopening⟩ := exists_opening_of_mem hmem
      obtain ⟨node, hnode, -, hholds⟩ :=
        h.node tag.1 (mem_makers_of_mem_openTags hmem) _ hopening
      have htagged : node.content.tag = some tag.2 := by
        have hbare : node.content.bare.tag = some tag.2 := by
          rcases hholds with ⟨m, closing, -, heq⟩ | ⟨-, heq⟩
          · rw [heq]
            rfl
          · rw [heq]
            rfl
        exact hbare
      rw [Option.map_some, Option.map_some, Option.filter_some, hnode, Option.bind_some, htagged]
      simp

/-- An edit that does not show in what nodes hold besides annotations. -/
theorem skip (h : Drafted lexemes draft) (hedit : Tree.Edited draft.tree change tree)
    (hbare : ∀ id content, (change id content).bare = content.bare)
    (hmakes : makesNode (openTags lexemes) lexeme = false)
    (hopen : openTags (lexemes ++ [lexeme]) = openTags lexemes)
    (hne : ∀ closing name, lexeme ≠ .directive closing (.ok (.closing name))) :
    Drafted (lexemes ++ [lexeme]) { draft with tree := tree } := by
  have hopened : openNodes (lexemes ++ [lexeme]) = draft.opened := by
    rw [openNodes_append hopen, h.opened_eq]
  have hskipped : Drafted (lexemes ++ [lexeme])
      { draft with tree := tree, opened := openNodes (lexemes ++ [lexeme]) } := by
    refine h.edit hedit hmakes (.inl hopened) (hbare 0) fun k _ made content _ hholds => ?_
    rw [hbare, holds_append fun closing name heq => absurd heq (hne closing name)]
    exact hholds
  rwa [hopened] at hskipped

/-- The innermost open tag notes the directive that closes it. -/
theorem close (h : Drafted lexemes draft) {directive : Directive} {i : Nat}
    (hhead : (openTags lexemes).head? = some (i, name)) :
    Drafted (lexemes ++ [.directive directive (.ok (.closing name))])
      { draft with
        tree := draft.tree.edit (nodeAt lexemes i) (Content.closedBy directive)
        opened := draft.opened.tail } := by
  have hname : (openTags lexemes).head?.map Prod.snd = some name := by
    rw [hhead, Option.map_some]
  have hmakes : makesNode (openTags lexemes) (.directive directive (.ok (.closing name))) =
      false := by
    simp [makesNode, hname]
  have hopen : openTags (lexemes ++ [.directive directive (.ok (.closing name))]) =
      (openTags lexemes).tail := by
    rw [openTags_append, openStep, if_pos hname]
  have hopened : openNodes (lexemes ++ [.directive directive (.ok (.closing name))]) =
      draft.opened.tail := by
    rw [openNodes_closing hopen, h.opened_eq]
  have hedit := Tree.edited_edit draft.tree (nodeAt lexemes i) (Content.closedBy directive)
  have hclosed := h.edit hedit hmakes (.inr hopened) (fun content => ?_)
    fun k _ made content _ hholds => holds_closing hhead hholds
  · rwa [hopened] at hclosed
  · rw [if_neg (nodeAt_ne_zero lexemes i)]

/-- A draft that is what the outline says goes on so, whatever the token. -/
theorem take (h : Drafted lexemes draft) (lexeme : Lexeme) :
    ∃ draft', draft.take lexeme = .ok draft' ∧ Drafted (lexemes ++ [lexeme]) draft' := by
  -- A token that makes a node without opening a tag adds a leaf.
  have hleaf : makesNode (openTags lexemes) lexeme = true →
      openTags (lexemes ++ [lexeme]) = openTags lexemes →
        ∃ draft', draft.addLeaf lexeme.content = .ok draft' ∧
          Drafted (lexemes ++ [lexeme]) draft' := by
    intro hmakes heq
    have hgrown := h.grow hmakes
    rw [openNodes_append heq, ← h.opened_eq] at hgrown
    exact ⟨_, Draft.addLeaf_eq h.current_lt _, hgrown⟩
  unfold Draft.take
  split
  next source =>
    split
    next hempty =>
      refine ⟨draft, rfl, ?_⟩
      refine h.skip (Tree.Edited.refl draft.tree) (fun _ _ => rfl) ?_ (openTags_append _ _) ?_
      · simp [makesNode, hempty]
      · rintro _ _ ⟨⟩
    next hne =>
      refine hleaf ?_ (openTags_append _ _)
      simpa [makesNode] using hne
  next d name attributes =>
    have hmakes : makesNode (openTags lexemes) (.directive d (.ok (.opening name attributes))) =
        true := rfl
    have hgrown := h.grow hmakes
    rw [openNodes_opening, ← h.size_eq, ← h.opened_eq] at hgrown
    exact ⟨_, Draft.openTag_eq h.current_lt _, hgrown⟩
  next d name attributes => exact hleaf rfl (openTags_append _ _)
  next d name =>
    rw [Draft.closeTag, h.matching?_eq]
    by_cases hname : (openTags lexemes).head?.map Prod.snd = some name
    · obtain ⟨⟨i, _⟩, hhead, rfl⟩ := Option.map_eq_some_iff.mp hname
      have hopened : draft.opened.head? = some (nodeAt lexemes i) := by
        rw [h.opened_eq, openNodes, List.head?_map, hhead, Option.map_some]
      rw [if_pos hname, hopened]
      exact ⟨_, rfl, h.close hhead⟩
    · rw [if_neg hname]
      refine hleaf ?_ ?_
      · simpa [makesNode] using hname
      · rw [openTags_append, openStep, if_neg hname]
  next d attributes =>
    refine ⟨_, rfl, h.skip (Tree.edited_edit draft.tree draft.annotated _) ?_ rfl
      (openTags_append _ _) ?_⟩
    · intro id content
      split <;> rfl
    · rintro _ _ ⟨⟩
  next d e => exact hleaf rfl (openTags_append _ _)

theorem start : ∃ draft, Draft.start = .ok draft ∧ Drafted [] draft := by
  have hroot : (Tree.empty.growLeaf { kind := .document }).get? 0 =
      some { serial := 0, content := { kind := .document } } :=
    Tree.get?_grow_self ..
  have hsize : (Tree.empty.growLeaf { kind := .document }).size = 1 := Tree.size_grow ..
  have hshaped : Shaped [] (Holds []) (Tree.empty.growLeaf { kind := .document }) := by
    refine ⟨hsize, fun id node hnode => ?_, ⟨_, hroot, rfl, rfl⟩,
      fun k hk => absurd hk List.not_mem_nil, ?_⟩
    · obtain rfl : id = 0 := Nat.lt_one_iff.mp (hsize ▸ Tree.lt_size_of_get? hnode)
      obtain rfl := Option.some.inj (hroot.symm.trans hnode)
      rfl
    · rw [hsize]
      refine Preorder.singleton_iff.mpr ⟨[], rfl, ?_⟩
      rw [Tree.ownedBy_of_get? hroot]
      exact .nil
  exact ⟨⟨Tree.empty.growLeaf { kind := .document }, 0, []⟩, rfl, hshaped, rfl, rfl, rfl, .root⟩

/-- Whatever the tokens, there is a draft after them, and it is what their outline says. -/
theorem exists_of_lexemes (lexemes : List Lexeme) :
    ∃ draft, (Draft.start >>= lexemes.foldlM Draft.take) = .ok draft ∧ Drafted lexemes draft := by
  induction lexemes using List.reverseRecOn with
  | nil =>
      obtain ⟨draft, hstart, h⟩ := start
      exact ⟨draft, by rw [hstart]; rfl, h⟩
  | append_singleton lexemes lexeme ih =>
      obtain ⟨draft, hdraft, h⟩ := ih
      obtain ⟨draft', htake, h'⟩ := h.take lexeme
      obtain ⟨first, hstart, hfold⟩ := bind_eq_ok_iff.mp hdraft
      refine ⟨draft', bind_eq_ok_iff.mpr ⟨first, hstart, ?_⟩, h'⟩
      rw [List.foldlM_append]
      refine bind_eq_ok_iff.mpr ⟨draft, hfold, ?_⟩
      rw [List.foldlM_cons]
      exact bind_eq_ok_iff.mpr ⟨draft', htake, rfl⟩

end Drafted

/-- What the node of the token at a position holds in the end. -/
def Outline.HoldsAtEnd (lexemes : List Lexeme) (k : Nat) (lexeme : Lexeme) (content : Content) :
    Prop :=
  (∃ m closing, ClosedBy lexemes k m closing ∧ content = lexeme.content.closedBy closing) ∨
    (∀ m closing, ¬ ClosedBy lexemes k m closing) ∧
      content = if nodeAt lexemes k ∈ openNodes lexemes then lexeme.content.leftOpen
        else lexeme.content

/-- A document that is what the outline of its tokens says. -/
structure Outlined (lexemes : List Lexeme) (document : Document) : Prop
    extends Shaped lexemes (HoldsAtEnd lexemes) document.tree where
  root_eq : document.root = 0

/-- A tag that was closed is not open at the end. -/
theorem Outline.not_mem_openNodes {closing : Directive} {m : Nat} (hk : k ∈ makers lexemes)
    (h : ClosedBy lexemes k m closing) : nodeAt lexemes k ∉ openNodes lexemes := by
  rw [mem_openNodes_iff hk]
  rintro ⟨name, hopen⟩
  exact not_closedBy_of_mem hopen h

theorem Drafted.finish (h : Drafted lexemes draft) :
    ∃ document, draft.finish = .ok document ∧ Outlined lexemes document := by
  have hnodup : draft.opened.Nodup := h.opened_eq ▸ nodup_openNodes lexemes
  have hedit := Tree.edited_foldr hnodup draft.tree Content.leftOpen
  have hlt : draft.root <
      (draft.opened.foldr (fun id tree => tree.edit id Content.leftOpen) draft.tree).size := by
    rw [hedit.size_eq, h.root_eq, h.size_eq]
    exact Nat.succ_pos _
  refine ⟨⟨_, draft.root, hlt⟩, dif_pos hlt, ?_, h.root_eq⟩
  refine h.toShaped.edit hedit (fun content => ?_) fun k hk made content hmade hholds => ?_
  · have hroot : 0 ∉ draft.opened := by
      rw [h.opened_eq]
      intro hin
      obtain ⟨tag, _, heq⟩ := List.mem_map.mp hin
      exact nodeAt_ne_zero lexemes tag.1 heq
    rw [if_neg hroot]
  · rw [h.opened_eq]
    rcases hholds with ⟨m, closing, hclosed, hcontent⟩ | ⟨hnever, hcontent⟩
    · rw [if_neg (not_mem_openNodes hk hclosed)]
      exact .inl ⟨m, closing, hclosed, hcontent⟩
    · refine .inr ⟨hnever, ?_⟩
      rw [← hcontent]
      split <;> rfl

/-- Whatever the tokens, there is a document of them, and it is what their outline says. -/
theorem exists_outlined (tokens : List Token) :
    ∃ document, Document.ofTokens tokens = .ok document ∧
      Outlined (tokens.map Token.lexeme) document := by
  obtain ⟨draft, hdraft, h⟩ := Drafted.exists_of_lexemes (tokens.map Token.lexeme)
  obtain ⟨first, hstart, hfold⟩ := bind_eq_ok_iff.mp hdraft
  rw [List.foldlM_map] at hfold
  obtain ⟨document, hfinish, houtlined⟩ := h.finish
  refine ⟨document, ?_, houtlined⟩
  exact bind_eq_ok_iff.mpr ⟨first, hstart, bind_eq_ok_iff.mpr ⟨draft, hfold, hfinish⟩⟩

end TaggedText
