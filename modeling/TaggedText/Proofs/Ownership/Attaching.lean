import TaggedText.Proofs.Session

/-!
# Attaching nodes in the trees of a session

Where operations may lead, trees let a node be attached exactly if it is in the tree, has no owner
and does not stand above its new owner, and otherwise name the first reason. The way up is no longer
than the tree is large, so the walk along it ends, and its answer does not depend on the fuel.
-/
namespace TaggedText

namespace Tree

open Links

variable {tree : Tree}

/-- How a tree answers to attempts to attach nodes. -/
structure Guarded (tree : Tree) : Prop where
  push_ok_iff : ∀ parent child,
    (∃ tree', tree.push parent child = .ok tree') ↔ tree.Attachable parent child
  push_error_iff : ∀ parent child e,
    tree.push parent child = .error e ↔ tree.Refuses parent child e
  setSlot_ok_iff : ∀ parent name child,
    (∃ tree', tree.setSlot parent name child = .ok tree') ↔ tree.Attachable parent child
  setSlot_error_iff : ∀ parent name child e,
    tree.setSlot parent name child = .error e ↔ tree.Refuses parent child e
  construct_ok_iff : ∀ content children,
    (∃ made, tree.construct content children = .ok made) ↔ tree.Adoptable children
  construct_error_iff : ∀ content children e, tree.construct content children = .error e ↔
    ∃ before child after, children = before ++ child :: after ∧ tree.Adoptable before ∧
      tree.Offends before child e
  /-- The owner that an error names owns the child. -/
  owner_owns : ∀ child owner, tree.parent? child = some owner → child ∈ tree.ownedBy owner
  short_cut : ∀ parent child, tree.checkAttach parent child = tree.checkAttachByWalk parent child
  /-- The way up ends, and with fuel for its nodes the walk meets them and no others. -/
  walk_ends : ∀ id < tree.size, ∃ path, Path tree.parent? id path ∧ (∀ a ∈ path, a < tree.size) ∧
    path.length ≤ tree.size ∧ ∀ target fuel, path.length ≤ fuel →
      (tree.isOnPath target fuel id = true ↔ target ∈ path)

theorem Valid.guarded (h : tree.Valid) : tree.Guarded where
  push_ok_iff _ _ := exists_bind_pure_iff.trans h.checkAttach_eq_ok_iff
  push_error_iff _ _ _ := bind_pure_eq_error_iff.trans h.checkAttach_eq_error_iff
  setSlot_ok_iff _ _ _ := exists_bind_pure_iff.trans h.checkAttach_eq_ok_iff
  setSlot_error_iff _ _ _ _ := bind_pure_eq_error_iff.trans h.checkAttach_eq_error_iff
  construct_ok_iff _ _ := exists_bind_pure_iff.trans checkChildren_eq_ok_iff
  construct_error_iff _ _ _ := bind_pure_eq_error_iff.trans checkChildren_eq_error_iff
  owner_owns child owner hup := (h.forest.owner_iff owner child).mp hup
  short_cut := h.checkAttach_eq_checkAttachByWalk
  walk_ends id hid := by
    obtain ⟨path, hpath⟩ := (h.forest.grounded id).exists_path
    exact ⟨path, hpath, h.lt_size_of_mem_path hpath hid, h.length_path_le hpath hid,
      fun target _ hfuel => isOnPath_iff_mem hpath hfuel target⟩

end Tree

/-- Every tree that operations lead to attaches nodes by these rules. -/
theorem guarded_of_mem_run (operations : List Operation) (tree : Tree)
    (h : tree ∈ Session.run operations) : tree.Guarded :=
  (Session.valid_of_mem_run h).guarded

/-- A node with a child and a slot that was filled twice. What was freed may own all of it, and the
child may not. -/
theorem guarded_of_mem_run_freed :
    ∃ tree ∈ Session.run
        [.construct 0 {} [], .construct 0 {} [0], .construct 0 {} [], .construct 0 {} [],
          .setSlot 0 1 "title" 2, .setSlot 0 1 "title" 3],
      tree.Guarded ∧ tree.Attachable 2 1 ∧ tree.Refuses 0 1 (.cycle 1 0) ∧
        tree.Refuses 2 3 (.alreadyAttached 3 1) := by
  have hrun : (Session.run
      [.construct 0 {} [], .construct 0 {} [0], .construct 0 {} [], .construct 0 {} [],
        .setSlot 0 1 "title" 2, .setSlot 0 1 "title" 3])[0]?.map (fun tree =>
          (tree.checkAttach 2 1, tree.checkAttach 0 1, tree.checkAttach 2 3)) =
      some (.ok (), .error (.cycle 1 0), .error (.alreadyAttached 3 1)) := by
    decide
  obtain ⟨tree, htree, hchecks⟩ := Option.map_eq_some_iff.mp hrun
  simp only [Prod.mk.injEq] at hchecks
  have hmem := List.mem_of_getElem? htree
  have hguarded := guarded_of_mem_run _ tree hmem
  refine ⟨tree, hmem, hguarded, ?_, ?_, ?_⟩
  · exact (hguarded.push_ok_iff 2 1).mp (exists_bind_pure_iff.mpr hchecks.1)
  · exact (hguarded.push_error_iff 0 1 _).mp (bind_pure_eq_error_iff.mpr hchecks.2.1)
  · exact (hguarded.push_error_iff 2 3 _).mp (bind_pure_eq_error_iff.mpr hchecks.2.2)

end TaggedText
