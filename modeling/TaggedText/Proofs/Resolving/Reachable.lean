import TaggedText.Proofs.Outline.Building
import TaggedText.Proofs.Resolving.Isomorphism

/-!
# Resolving the trees of a session

In every tree that operations lead to, resolving succeeds from every root and gives a copy of the
nodes in document order. The options and the nodes outside do not matter to the copy. Where there
are no variables, a resolved copy and the document of a list of tokens are resolved to themselves,
since their nodes stand in document order already.
-/
namespace TaggedText

open Links

variable {settings : Settings}

/-- The document of a list of tokens is its own copy where nothing is replaced. -/
theorem Document.resolve_ofTokens {tokens : List Token} {document : Document}
    (h : Document.ofTokens tokens = .ok document) (hplain : settings.bindings.getD [] = []) :
    document.resolve settings = .ok document := by
  obtain ⟨made, hmade, houtlined⟩ := exists_outlined tokens
  obtain rfl := Except.ok.inj (hmade.symm.trans h)
  have horder : Tree.DocumentOrder made.tree 0 (List.range made.tree.size) :=
    ⟨houtlined.preorder, List.nodup_range, fun _ hid => List.mem_range.mp hid⟩
  have hparent : made.tree.parent? 0 = none := by
    obtain ⟨node, hnode, hparent, -⟩ := houtlined.root_node
    rw [Tree.parent?_of_get? hnode, hparent]
  exact (Document.valid_of_ofTokens h).resolve_eq_self houtlined.root_eq horder hparent
    (Interpolation.effective?_eq_none hplain)

/-- What resolving gives. -/
structure Resolves (tree : Tree) (root : NodeId) (settings : Settings) (copy : Document) :
    Prop where
  resolve_eq : tree.resolve root settings = .ok copy
  /-- The walk through the tree is the document order that the copy follows. -/
  order : Tree.DocumentOrder tree root (root :: tree.walk root)
  isCopy : IsCopy tree root (root :: tree.walk root) settings.bindings copy
  /-- A tree with the same nodes below the root, up to who owns the root, gives the same nodes. -/
  independent : ∀ (other : Tree) (settings' : Settings), settings'.bindings = settings.bindings →
    (∀ id ∈ root :: tree.walk root, ∀ node, tree.get? id = some node →
      ∃ parent, other.get? id = some { node with parent := parent }) →
    ∃ copy', other.resolve root settings' = .ok copy' ∧ copy'.root = copy.root ∧
      copy'.tree.nodes = copy.tree.nodes
  reproduced : ∀ plain : Settings, plain.bindings.getD [] = [] → copy.resolve plain = .ok copy

/-- From every root of every tree of a session a copy is resolved. A document of tokens is its own
copy where there are no variables. -/
theorem resolves_of_mem_run :
    (∀ (operations : List Operation) (tree : Tree) (root : NodeId) (settings : Settings),
      tree ∈ Session.run operations → root < tree.size → ∃ copy, Resolves tree root settings copy) ∧
    ∀ (tokens : List Token) (document : Document) (plain : Settings),
      Document.ofTokens tokens = .ok document → plain.bindings.getD [] = [] →
        document.resolve plain = .ok document := by
  refine ⟨fun operations tree root settings htree hroot => ?_, fun _ _ _ =>
    Document.resolve_ofTokens⟩
  have hvalid := Session.valid_of_mem_run htree
  obtain ⟨order, horder⟩ := hvalid.exists_documentOrder hroot
  obtain rfl := horder.eq_walk
  obtain ⟨copy, hcopy⟩ : ∃ copy, tree.resolve root settings = .ok copy := by
    rw [Tree.resolve, dif_pos hroot]
    exact ⟨_, rfl⟩
  refine ⟨copy, hcopy, horder, hvalid.isCopy horder hcopy, ?_, fun plain hplain => ?_⟩
  · exact fun other settings' hbindings hagree => horder.resolve_eq hcopy hagree hbindings
  · exact hvalid.resolve_copy horder hcopy (Interpolation.effective?_eq_none hplain)

/-- A node with a title in a slot and a letter below it, under another node. -/
def letterOperations : List Operation :=
  [.construct 0 { attributes := [("to", .string "\x7b\x7b $who \x7d\x7d")] } [], .construct 0 {} [],
    .construct 0 {} [0], .setSlot 0 2 "title" 1, .construct 0 {} [2]]

/-- The copy begins at the inner node, with its title before the letter. -/
theorem resolves_of_mem_run_letter :
    ∃ tree ∈ Session.run letterOperations, ∃ copy,
      Resolves tree 2 { bindings := some [("who", .string "you")] } copy ∧
        copy.tree.nodes.toList.map (fun node =>
          (node.owned, node.parent, node.content.attributes.map fun entry => entry.2.string?)) =
            [([1, 2], none, []), ([], some 0, []), ([], some 0, [some "you"])] ∧
        ∃ document, Document.ofTokens [⟨.text "a", 0, 1⟩] = .ok document ∧
          document.resolve {} = .ok document := by
  have hcopied : ((Session.run letterOperations)[0]?.bind fun tree =>
      (tree.resolve 2 { bindings := some [("who", .string "you")] }).toOption).map (fun copy =>
        copy.tree.nodes.toList.map fun node =>
          (node.owned, node.parent, node.content.attributes.map fun entry => entry.2.string?)) =
      some [([1, 2], none, []), ([], some 0, []), ([], some 0, [some "you"])] := by
    decide +kernel
  obtain ⟨made, hmade, hnodes⟩ := Option.map_eq_some_iff.mp hcopied
  obtain ⟨tree, htree, hresolve⟩ := Option.bind_eq_some_iff.mp hmade
  have hmem := List.mem_of_getElem? htree
  have hroot : 2 < tree.size := by
    by_contra hle
    rw [Tree.resolve, dif_neg hle] at hresolve
    cases hresolve
  obtain ⟨copy, hcopy⟩ := resolves_of_mem_run.1 letterOperations tree 2
    { bindings := some [("who", .string "you")] } hmem hroot
  obtain rfl := Except.ok.inj
    ((toOption_eq_some_iff.mp hresolve).symm.trans hcopy.resolve_eq)
  obtain ⟨document, hdocument, -⟩ := exists_outlined [⟨.text "a", 0, 1⟩]
  have hsame := resolves_of_mem_run.2 _ document {} hdocument rfl
  exact ⟨tree, hmem, made, hcopy, hnodes, document, hdocument, hsame⟩

end TaggedText
