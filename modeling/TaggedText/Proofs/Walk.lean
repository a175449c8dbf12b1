import TaggedText.Proofs.Ownership.Copying
import TaggedText.Proofs.Preorder

/-!
# Walks through a tree

The walk with a stack meets nodes in document order, as long as there is fuel for each. In a valid
tree the nodes from a root on downwards have such an order, and it has no node twice.
-/
namespace TaggedText.Tree

open Links

variable {tree : Tree} {root id : NodeId} {order seen ahead stack : List NodeId}

theorem walkFrom_eq {fuel : Nat} (h : Preorder tree.ownedBy stack order)
    (hfuel : order.length ≤ fuel) : tree.walkFrom fuel stack = order := by
  induction fuel generalizing stack order with
  | zero =>
      rw [List.length_eq_zero_iff.mp (Nat.le_zero.mp hfuel)]
      rfl
  | succ fuel ih =>
      match stack with
      | [] =>
          cases h
          rfl
      | id :: stack =>
          obtain ⟨rest, rfl, hrest⟩ := Preorder.cons_iff.mp h
          rw [walkFrom]
          exact congrArg (id :: ·) (ih hrest (Nat.le_of_succ_le_succ hfuel))

theorem walk_eq (h : Preorder tree.ownedBy [root] (root :: order))
    (hle : order.length ≤ tree.size) :
    tree.walk root = order := by
  obtain ⟨rest, heq, hrest⟩ := Preorder.singleton_iff.mp h
  obtain rfl := List.tail_eq_of_cons_eq heq
  exact walkFrom_eq hrest hle

theorem Visits.lt_size (hroot : root < tree.size) (h : Visits tree root seen ahead)
    (hid : id ∈ seen ++ ahead) : id < tree.size := by
  rcases h.owner_seen id hid with rfl | ⟨owner, _, hup⟩
  · exact hroot
  · exact lt_size_of_parent? hup

/-- Distinct nodes of a tree are no more than the tree has. -/
theorem length_le_size (hnodup : order.Nodup) (hlt : ∀ id ∈ order, id < tree.size) :
    order.length ≤ tree.size := by
  have hsub : order ⊆ List.range tree.size := fun id hid => List.mem_range.mpr (hlt id hid)
  simpa using (hnodup.subperm hsub).length_le

theorem Visits.length_le (hroot : root < tree.size) (h : Visits tree root seen ahead) :
    (seen ++ ahead).length ≤ tree.size :=
  length_le_size h.nodup fun _ hid => h.lt_size hroot hid

/-- The nodes ahead and all below them can be visited in document order. -/
theorem Visits.exists_preorder (hs : tree.Valid) (hroot : root < tree.size)
    (h : Visits tree root seen ahead) :
    ∃ order, Preorder tree.ownedBy ahead order ∧ Visits tree root (seen ++ order) [] := by
  -- Each visit uses up one of the nodes of the tree.
  generalize hfuel : tree.size - seen.length = fuel
  induction fuel generalizing seen ahead with
  | zero =>
      have hle := h.length_le hroot
      rw [List.length_append] at hle
      obtain rfl : ahead = [] := List.length_eq_zero_iff.mp (by omega)
      exact ⟨[], .nil, by rwa [List.append_nil]⟩
  | succ fuel ih =>
      match ahead with
      | [] => exact ⟨[], .nil, by rwa [List.append_nil]⟩
      | id :: ahead =>
          have hsize : tree.size - (seen ++ [id]).length = fuel := by
            rw [List.length_append, List.length_singleton]
            omega
          obtain ⟨rest, hrest, hvisits⟩ := ih (h.step hs) hsize
          refine ⟨id :: rest, Preorder.cons_iff.mpr ⟨rest, rfl, hrest⟩, ?_⟩
          rwa [List.append_assoc, List.singleton_append] at hvisits

/-- The document order of a node and all below it. -/
structure DocumentOrder (tree : Tree) (root : NodeId) (order : List NodeId) : Prop where
  preorder : Preorder tree.ownedBy [root] order
  nodup : order.Nodup
  lt_size : ∀ id ∈ order, id < tree.size

theorem Valid.exists_documentOrder (hs : tree.Valid) (hroot : root < tree.size) :
    ∃ order, DocumentOrder tree root order := by
  obtain ⟨order, hpreorder, hvisits⟩ := (Visits.start tree root).exists_preorder hs hroot
  rw [List.nil_append] at hvisits
  refine ⟨order, hpreorder, ?_, fun id hid => ?_⟩
  · simpa using hvisits.nodup
  · exact hvisits.lt_size hroot (List.mem_append_left _ hid)

theorem DocumentOrder.length_le (h : DocumentOrder tree root order) : order.length ≤ tree.size :=
  length_le_size h.nodup h.lt_size

/-- The walk below a node and the node before it make up the order. -/
theorem DocumentOrder.eq_walk (h : DocumentOrder tree root order) :
    order = root :: tree.walk root := by
  obtain ⟨rest, rfl, _⟩ := Preorder.singleton_iff.mp h.preorder
  rw [walk_eq h.preorder (Nat.le_trans (Nat.le_succ _) h.length_le)]

end TaggedText.Tree
