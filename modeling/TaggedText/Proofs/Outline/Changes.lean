import TaggedText.Document.Draft
import TaggedText.Proofs.Ownership.Operations

/-!
# How a draft changes its tree

A draft makes a node and at once makes it the last child of the current place. The guard of the
tree has nothing against it, since the new node owns nothing and has no owner. Apart from the new
node only the current place changes.

Besides, a draft edits what nodes hold, which leaves all links as they are.
-/
namespace TaggedText

namespace Tree

variable {tree tree' : Tree} {owner id : NodeId} {node : Node} {content : Content}

/-- A new node before it is owned. -/
def growLeaf (tree : Tree) (content : Content) : Tree :=
  tree.grow { serial := tree.nextSerial, content := content } (tree.nextSerial + 1)

/-- The tree after a new node has become the last child of another. -/
def addLeaf (tree : Tree) (owner : NodeId) (content : Content) : Tree :=
  (tree.growLeaf content).attach owner tree.size
    (fun node => { node with children := node.children ++ [tree.size] }) none

@[simp] theorem size_addLeaf (tree : Tree) (owner : NodeId) (content : Content) :
    (tree.addLeaf owner content).size = tree.size + 1 := by
  simp [addLeaf, attach, setParent, growLeaf]

@[simp] theorem nextSerial_addLeaf (tree : Tree) (owner : NodeId) (content : Content) :
    (tree.addLeaf owner content).nextSerial = tree.nextSerial + 1 := rfl

theorem get?_addLeaf (tree : Tree) (owner : NodeId) (content : Content) (id : NodeId) :
    (tree.addLeaf owner content).get? id =
      (((tree.growLeaf content).get? id).map fun node =>
        if tree.size = id then { node with parent := some owner } else node).map fun node =>
          if owner = id then { node with children := node.children ++ [tree.size] } else node := by
  simp only [addLeaf, attach, setParent, get?_modify]
  cases (tree.growLeaf content).get? id with
  | none => simp
  | some node => split <;> split <;> rfl

theorem get?_addLeaf_self (howner : owner < tree.size) (content : Content) :
    (tree.addLeaf owner content).get? tree.size =
      some { serial := tree.nextSerial, content := content, parent := some owner } := by
  rw [get?_addLeaf, growLeaf, get?_grow_self, Option.map_some, Option.map_some, if_pos rfl,
    if_neg (Nat.ne_of_lt howner)]

/-- Of the older nodes the owner alone changes. -/
theorem get?_addLeaf_of_lt (hid : id < tree.size) (owner : NodeId) (content : Content) :
    (tree.addLeaf owner content).get? id = (tree.get? id).map fun node =>
      if owner = id then { node with children := node.children ++ [tree.size] } else node := by
  obtain ⟨node, hnode⟩ := exists_get? hid
  rw [get?_addLeaf, growLeaf, get?_grow_of_lt hid, hnode, Option.map_some, Option.map_some,
    if_neg (Nat.ne_of_gt hid), Option.map_some]

theorem get?_addLeaf_of_get? (hnode : tree.get? id = some node) (owner : NodeId)
    (content : Content) :
    (tree.addLeaf owner content).get? id = some
      (if owner = id then { node with children := node.children ++ [tree.size] } else node) := by
  rw [get?_addLeaf_of_lt (lt_size_of_get? hnode), hnode, Option.map_some]

theorem ownedBy_addLeaf (howner : owner < tree.size) (content : Content) :
    (tree.addLeaf owner content).ownedBy =
      Function.update tree.ownedBy owner (tree.ownedBy owner ++ [tree.size]) := by
  obtain ⟨node, hnode⟩ := exists_get? howner
  have hgrown : (tree.growLeaf content).get? owner = some node := by
    rw [growLeaf, get?_grow_of_lt howner, hnode]
  have hleaf : (tree.growLeaf content).ownedBy = tree.ownedBy := by
    rw [growLeaf, ownedBy_grow]
    exact Function.update_eq_self_iff.mpr (ownedBy_eq_nil_of_size_le (Nat.le_refl _)).symm
  rw [addLeaf, ownedBy_attach hgrown (Nat.ne_of_gt howner), hleaf, ownedBy_of_get? hnode,
    Node.owned, Node.owned, List.append_assoc]

/-- A node that owns nothing and has no owner may be attached to any other. -/
theorem checkAttach_eq_ok {child : NodeId} (howner : owner < tree.size) (hne : owner ≠ child)
    (hchild : tree.get? child = some node) (hparent : node.parent = none)
    (hchildren : node.children = []) (hslots : node.slots = []) :
    tree.checkAttach owner child = .ok () := by
  obtain ⟨place, hplace⟩ := exists_get? howner
  have hget : tree.get owner = .ok place := get_eq_ok_iff.mpr hplace
  have hget' : tree.get child = .ok node := get_eq_ok_iff.mpr hchild
  simp [checkAttach, hget, hget', hparent, hchildren, hslots, hne, bind, Except.bind]

theorem push_growLeaf (howner : owner < tree.size) (content : Content) :
    (tree.growLeaf content).push owner tree.size = .ok (tree.addLeaf owner content) := by
  have hsize : (tree.growLeaf content).size = tree.size + 1 := size_grow ..
  have hcheck : (tree.growLeaf content).checkAttach owner tree.size = .ok () := by
    refine checkAttach_eq_ok ?_ (Nat.ne_of_lt howner) (get?_grow_self ..) rfl rfl rfl
    rw [hsize]
    exact Nat.lt_succ_of_lt howner
  rw [push, hcheck]
  rfl

/-- Two trees that differ in what their nodes hold, each node by its own change. -/
structure Edited (tree : Tree) (change : NodeId → Content → Content) (tree' : Tree) : Prop where
  get?_eq : ∀ id, tree'.get? id =
    (tree.get? id).map fun node => { node with content := change id node.content }
  nextSerial_eq : tree'.nextSerial = tree.nextSerial

theorem Edited.refl (tree : Tree) : Edited tree (fun _ content => content) tree where
  get?_eq _ := Option.map_id'.symm
  nextSerial_eq := rfl

theorem edited_edit (tree : Tree) (target : NodeId) (f : Content → Content) :
    Edited tree (fun id content => if target = id then f content else content)
      (tree.edit target f) where
  get?_eq id := by
    rw [edit, get?_modify]
    split <;> simp
  nextSerial_eq := rfl

/-- Each of the nodes is edited once. -/
theorem edited_foldr {ids : List NodeId} (hnodup : ids.Nodup) (tree : Tree)
    (f : Content → Content) :
    Edited tree (fun id content => if id ∈ ids then f content else content)
      (ids.foldr (fun id tree => tree.edit id f) tree) := by
  induction ids with
  | nil => simpa using Edited.refl tree
  | cons target ids ih =>
      obtain ⟨htarget, hids⟩ := List.nodup_cons.mp hnodup
      obtain ⟨hget, hnext⟩ := ih hids
      refine ⟨fun id => ?_, hnext⟩
      rw [List.foldr_cons, (edited_edit _ target f).get?_eq, hget, Option.map_map]
      refine Option.map_congr fun node _ => ?_
      by_cases hid : target = id
      · subst hid
        simp [htarget]
      · simp [hid, Ne.symm hid]

section
variable {change : NodeId → Content → Content} (h : Edited tree change tree')
include h

theorem Edited.get?_of_get? (hnode : tree.get? id = some node) :
    tree'.get? id = some { node with content := change id node.content } := by
  rw [h.get?_eq, hnode, Option.map_some]

theorem Edited.size_eq : tree'.size = tree.size := by
  have hnone : ∀ id, tree'.size ≤ id ↔ tree.size ≤ id := by
    intro id
    rw [← get?_eq_none_iff, ← get?_eq_none_iff, h.get?_eq, Option.map_eq_none_iff]
  exact Nat.le_antisymm ((hnone _).mpr (Nat.le_refl _)) ((hnone _).mp (Nat.le_refl _))

theorem Edited.ownedBy_eq : tree'.ownedBy = tree.ownedBy := by
  funext id
  rw [ownedBy, ownedBy, h.get?_eq, Option.map_map]
  rfl

end

end Tree

namespace Draft

variable {draft : Draft}

theorem add_eq (hcurrent : draft.current < draft.tree.size) (content : Content) :
    draft.add content =
      .ok (draft.tree.size, { draft with tree := draft.tree.addLeaf draft.current content }) := by
  have hmade : draft.tree.construct content [] =
      .ok (draft.tree.size, draft.tree.growLeaf content) := rfl
  have hpushed := Tree.push_growLeaf hcurrent content
  simp only [add, hmade, bind, Except.bind, hpushed]
  rfl

theorem addLeaf_eq (hcurrent : draft.current < draft.tree.size) (content : Content) :
    draft.addLeaf content =
      .ok { draft with tree := draft.tree.addLeaf draft.current content } := by
  rw [addLeaf, add_eq hcurrent]
  rfl

theorem openTag_eq (hcurrent : draft.current < draft.tree.size) (content : Content) :
    draft.openTag content = .ok { draft with
      tree := draft.tree.addLeaf draft.current content
      opened := draft.tree.size :: draft.opened } := by
  rw [openTag, add_eq hcurrent]
  rfl

end Draft

end TaggedText
