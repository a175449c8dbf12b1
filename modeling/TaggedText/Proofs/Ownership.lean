import Mathlib.Data.List.Perm.Subperm
import TaggedText.Proofs.Links
import TaggedText.Tree

/-!
# Ownership in a tree

In a valid tree the links form a forest, no node has a slot twice, and the numbers for diagnosis
are distinct and below the next one. Each operation keeps a tree valid: making a node, appending a
child, setting a slot and editing what a node holds.

The links of a tree are looked at as the two functions of `Links`. An operation is described once
by what it does to them; that the links stay a forest is then a fact about forests.
-/
namespace TaggedText

namespace Tree

open Links

variable {tree tree' : Tree} {id owner parent child : NodeId} {node : Node}

/-- The nodes that a node owns. -/
def ownedBy (tree : Tree) (id : NodeId) : List NodeId :=
  ((tree.get? id).map Node.owned).getD []

/-- The numbers for diagnosis in the order of the nodes. -/
def serials (tree : Tree) : List Nat :=
  tree.nodes.toList.map Node.serial

structure Valid (tree : Tree) : Prop where
  forest : Forest tree.parent? tree.ownedBy
  slots : ∀ id node, tree.get? id = some node → Entries.Distinct node.slots
  serials_nodup : tree.serials.Nodup
  serials_lt : ∀ n ∈ tree.serials, n < tree.nextSerial

theorem get?_eq_none_iff : tree.get? id = none ↔ tree.size ≤ id := by
  simp [get?, size]

theorem lt_size_of_get? (h : tree.get? id = some node) : id < tree.size :=
  (Array.getElem?_eq_some_iff.mp h).choose

theorem exists_get? (h : id < tree.size) : ∃ node, tree.get? id = some node :=
  ⟨_, Array.getElem?_eq_getElem h⟩

theorem eq_of_get? (h : ∀ id, tree.get? id = tree'.get? id)
    (hnext : tree.nextSerial = tree'.nextSerial) : tree = tree' := by
  obtain ⟨nodes, nextSerial⟩ := tree
  obtain ⟨nodes', nextSerial'⟩ := tree'
  obtain rfl : nodes = nodes' := Array.ext_getElem? h
  obtain rfl : nextSerial = nextSerial' := hnext
  rfl

theorem get_eq_ok_iff : tree.get id = .ok node ↔ tree.get? id = some node := by
  unfold get
  cases tree.get? id <;> simp

theorem parent?_of_get? (h : tree.get? id = some node) : tree.parent? id = node.parent := by
  simp only [parent?, h, Option.bind_some]

theorem ownedBy_of_get? (h : tree.get? id = some node) : tree.ownedBy id = node.owned := by
  simp only [ownedBy, h, Option.map_some, Option.getD_some]

theorem parent?_eq_none_of_size_le (h : tree.size ≤ id) : tree.parent? id = none := by
  simp only [parent?, get?_eq_none_iff.mpr h, Option.bind_none]

theorem ownedBy_eq_nil_of_size_le (h : tree.size ≤ id) : tree.ownedBy id = [] := by
  simp only [ownedBy, get?_eq_none_iff.mpr h, Option.map_none, Option.getD_none]

theorem lt_size_of_parent? (h : tree.parent? id = some owner) : id < tree.size := by
  by_contra hge
  rw [parent?_eq_none_of_size_le (Nat.le_of_not_lt hge)] at h
  cases h

theorem mem_ownedBy_iff : child ∈ tree.ownedBy owner ↔
    ∃ node, tree.get? owner = some node ∧ child ∈ node.owned := by
  cases h : tree.get? owner with
  | none => simp [ownedBy, h]
  | some node => simp [ownedBy, h]

namespace Valid

theorem owned_lt_size (h : tree.Valid) (hc : child ∈ tree.ownedBy owner) : child < tree.size :=
  lt_size_of_parent? ((h.forest.owner_iff owner child).mpr hc)

theorem owner_lt_size (h : tree.Valid) (hp : tree.parent? id = some owner) :
    owner < tree.size := by
  obtain ⟨node, hn, _⟩ := mem_ownedBy_iff.mp ((h.forest.owner_iff owner id).mp hp)
  exact lt_size_of_get? hn

/-- No node is owned twice in the whole tree. -/
theorem nodup_owned (h : tree.Valid) : (tree.nodes.toList.flatMap Node.owned).Nodup := by
  have at_index : ∀ (i : Nat) (hi : i < tree.nodes.toList.length),
      tree.ownedBy i = (tree.nodes.toList[i]).owned := by
    intro i hi
    refine ownedBy_of_get? ?_
    rw [get?, ← Array.getElem?_toList, List.getElem?_eq_getElem hi]
  refine List.nodup_flatMap.mpr ⟨fun node hn => ?_, List.pairwise_iff_getElem.mpr ?_⟩
  · obtain ⟨i, hi, rfl⟩ := List.getElem_of_mem hn
    exact at_index i hi ▸ h.forest.nodup i
  · intro i j hi hj hij c hci hcj
    rw [← at_index i hi, ← h.forest.owner_iff] at hci
    rw [← at_index j hj, ← h.forest.owner_iff, hci] at hcj
    exact absurd (Option.some.inj hcj) (Nat.ne_of_lt hij)

end Valid

theorem isOnPath_iff_mem {path : List NodeId} (h : Path tree.parent? id path) {fuel : Nat}
    (hf : path.length ≤ fuel) (target : NodeId) :
    tree.isOnPath target fuel id = true ↔ target ∈ path := by
  induction h generalizing fuel with
  | @top id ht =>
      obtain ⟨n, rfl⟩ := Nat.exists_eq_succ_of_ne_zero (Nat.ne_of_gt hf)
      simp only [isOnPath, ht, Bool.or_false, beq_iff_eq, List.mem_singleton, @eq_comm _ id target]
  | @owned id owner path hu _ ih =>
      obtain ⟨n, rfl⟩ := Nat.exists_eq_succ_of_ne_zero
        (Nat.ne_of_gt (Nat.lt_of_lt_of_le (Nat.succ_pos _) hf))
      simp only [isOnPath, hu, Bool.or_eq_true, beq_iff_eq, List.mem_cons,
        ih (Nat.le_of_succ_le_succ hf), @eq_comm _ id target]

/-- A node that owns nothing is above itself alone. -/
theorem Valid.not_above_of_leaf (h : tree.Valid) (hn : tree.get? child = some node)
    (hleaf : node.owned = []) (hne : parent ≠ child) : ¬ Above tree.parent? child parent := by
  intro habove
  rcases habove.eq_or_owner with heq | ⟨c, hup, _⟩
  · exact hne heq
  · rw [h.forest.owner_iff, ownedBy_of_get? hn, hleaf] at hup
    cases hup

/-- A way up stays in the tree. -/
theorem Valid.lt_size_of_mem_path (h : tree.Valid) {path : List NodeId}
    (hp : Path tree.parent? id path) (hid : id < tree.size) : ∀ a ∈ path, a < tree.size := by
  induction hp with
  | top _ =>
      intro a ha
      exact List.mem_singleton.mp ha ▸ hid
  | owned hu _ ih =>
      intro a ha
      rcases List.mem_cons.mp ha with rfl | ha
      · exact hid
      · exact ih (h.owner_lt_size hu) a ha

/-- A way up has no more nodes than the tree. -/
theorem Valid.length_path_le (h : tree.Valid) {path : List NodeId}
    (hp : Path tree.parent? id path) (hid : id < tree.size) : path.length ≤ tree.size := by
  have hsub : path ⊆ List.range tree.size :=
    fun a ha => List.mem_range.mpr (h.lt_size_of_mem_path hp hid a ha)
  simpa using (hp.nodup.subperm hsub).length_le

/-- The walk up that guards against cycles meets exactly the nodes above. -/
theorem Valid.isOnPath_iff (h : tree.Valid) (hid : id < tree.size) (target : NodeId) :
    tree.isOnPath target tree.size id = true ↔ Above tree.parent? target id := by
  obtain ⟨path, hp⟩ := (h.forest.grounded id).exists_path
  rw [isOnPath_iff_mem hp (h.length_path_le hp hid), hp.mem_iff]

end Tree

end TaggedText
