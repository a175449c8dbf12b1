import Mathlib.Data.List.Induction
import TaggedText.Proofs.Fallible
import TaggedText.Proofs.Ownership

/-!
# Who may be attached

A node may come to be owned by another if both are in the tree, it has no owner and it does not
stand above the other. A new node may be made over children that are in the tree, have no owner and
are listed once. Where this fails, the error is the first reason in a fixed order, and for a list of
children that of the first one that fails.

The guard looks at the way up only for a child that owns something. In a valid tree nothing is
below a node that owns nothing, so the guard answers as if it always looked.
-/
namespace TaggedText

namespace Tree

open Links

variable {tree : Tree} {id owner parent child : NodeId} {node : Node} {e : TreeError}
variable {seen before children : List NodeId}

structure Attachable (tree : Tree) (parent child : NodeId) : Prop where
  parent_lt : parent < tree.size
  child_lt : child < tree.size
  unowned : tree.parent? child = none
  /-- The child is neither the parent nor above it. -/
  apart : ¬ Above tree.parent? child parent

theorem Attachable.ne (h : tree.Attachable parent child) : child ≠ parent :=
  fun heq => h.apart (heq ▸ .here)

/-- The first reason why `child` may not come to be owned by `parent`. -/
inductive Refuses (tree : Tree) (parent child : NodeId) : TreeError → Prop
  | unknownParent : tree.size ≤ parent → Refuses tree parent child (.unknownNode parent)
  | unknownChild : parent < tree.size → tree.size ≤ child →
      Refuses tree parent child (.unknownNode child)
  | owned {owner : NodeId} : parent < tree.size → child < tree.size →
      tree.parent? child = some owner → Refuses tree parent child (.alreadyAttached child owner)
  | above : parent < tree.size → child < tree.size → tree.parent? child = none →
      Above tree.parent? child parent → Refuses tree parent child (.cycle child parent)

/-- Children that a new node may own. -/
structure Adoptable (tree : Tree) (children : List NodeId) : Prop where
  nodup : children.Nodup
  lt_size : ∀ c ∈ children, c < tree.size
  unowned : ∀ c ∈ children, tree.parent? c = none

/-- The first reason why a new node may not own `child`, where the children `listed` come before. -/
inductive Offends (tree : Tree) (listed : List NodeId) (child : NodeId) : TreeError → Prop
  | unknown : tree.size ≤ child → Offends tree listed child (.unknownNode child)
  | owned {owner : NodeId} : tree.parent? child = some owner →
      Offends tree listed child (.alreadyAttached child owner)
  | twice : child < tree.size → tree.parent? child = none → child ∈ listed →
      Offends tree listed child (.alreadyAttached child tree.size)

/-- The guard of an attachment without its short cut. -/
def checkAttachByWalk (tree : Tree) (parent child : NodeId) : Except TreeError Unit := do
  let _ ← tree.get parent
  let node ← tree.get child
  match node.parent with
  | some owner => .error (.alreadyAttached child owner)
  | none =>
      if tree.isOnPath child tree.size parent then .error (.cycle child parent)
      else .ok ()

theorem get_eq_ok_of_get? (h : tree.get? id = some node) : tree.get id = .ok node :=
  get_eq_ok_iff.mpr h

theorem get_eq_error_of_size_le (h : tree.size ≤ id) : tree.get id = .error (.unknownNode id) := by
  rw [get, get?_eq_none_iff.mpr h]

theorem Valid.checkAttach_eq_checkAttachByWalk (h : tree.Valid) (parent child : NodeId) :
    tree.checkAttach parent child = tree.checkAttachByWalk parent child := by
  unfold checkAttach checkAttachByWalk
  cases hparent : tree.get parent with
  | error e => rfl
  | ok above =>
      cases hchild : tree.get child with
      | error e => rfl
      | ok node =>
          have hlt := lt_size_of_get? (get_eq_ok_iff.mp hparent)
          simp only [bind, Except.bind]
          cases node.parent with
          | some owner => rfl
          | none =>
              dsimp only
              split
              next hleaf =>
                simp only [Bool.and_eq_true, List.isEmpty_iff, bne_iff_ne] at hleaf
                have howned : node.owned = [] := by simp [Node.owned, hleaf.1.1, hleaf.1.2]
                have hapart := h.not_above_of_leaf (get_eq_ok_iff.mp hchild) howned hleaf.2
                rw [← h.isOnPath_iff hlt] at hapart
                rw [if_neg hapart]
              next => rfl

theorem Valid.checkAttach_of_attachable (h : tree.Valid) (ha : tree.Attachable parent child) :
    tree.checkAttach parent child = .ok () := by
  obtain ⟨above, hparent⟩ := exists_get? ha.parent_lt
  obtain ⟨node, hchild⟩ := exists_get? ha.child_lt
  have hfree : node.parent = none := (parent?_of_get? hchild).symm.trans ha.unowned
  have hpath := ha.apart
  rw [← h.isOnPath_iff ha.parent_lt] at hpath
  rw [h.checkAttach_eq_checkAttachByWalk, checkAttachByWalk, get_eq_ok_of_get? hparent,
    get_eq_ok_of_get? hchild]
  simp [bind, Except.bind, hfree, hpath]

theorem Valid.checkAttach_of_refuses (h : tree.Valid) (hr : tree.Refuses parent child e) :
    tree.checkAttach parent child = .error e := by
  rw [h.checkAttach_eq_checkAttachByWalk, checkAttachByWalk]
  cases hr with
  | unknownParent hparent =>
      rw [get_eq_error_of_size_le hparent]
      rfl
  | unknownChild hparent hchild =>
      obtain ⟨above, hparent⟩ := exists_get? hparent
      rw [get_eq_ok_of_get? hparent, get_eq_error_of_size_le hchild]
      rfl
  | owned hparent hchild hup =>
      obtain ⟨above, hparent⟩ := exists_get? hparent
      obtain ⟨node, hchild⟩ := exists_get? hchild
      rw [parent?_of_get? hchild] at hup
      rw [get_eq_ok_of_get? hparent, get_eq_ok_of_get? hchild]
      simp [bind, Except.bind, hup]
  | above hparent hchild hfree habove =>
      rw [← h.isOnPath_iff hparent] at habove
      obtain ⟨above, hparent⟩ := exists_get? hparent
      obtain ⟨node, hchild⟩ := exists_get? hchild
      rw [parent?_of_get? hchild] at hfree
      rw [get_eq_ok_of_get? hparent, get_eq_ok_of_get? hchild]
      simp [bind, Except.bind, hfree, habove]

theorem attachable_or_refuses (tree : Tree) (parent child : NodeId) :
    tree.Attachable parent child ∨ ∃ e, tree.Refuses parent child e := by
  by_cases hparent : parent < tree.size
  · by_cases hchild : child < tree.size
    · cases hup : tree.parent? child with
      | some owner => exact .inr ⟨_, .owned hparent hchild hup⟩
      | none =>
          by_cases habove : Above tree.parent? child parent
          · exact .inr ⟨_, .above hparent hchild hup habove⟩
          · exact .inl ⟨hparent, hchild, hup, habove⟩
    · exact .inr ⟨_, .unknownChild hparent (Nat.le_of_not_lt hchild)⟩
  · exact .inr ⟨_, .unknownParent (Nat.le_of_not_lt hparent)⟩

theorem Valid.checkAttach_eq_ok_iff (h : tree.Valid) :
    tree.checkAttach parent child = .ok () ↔ tree.Attachable parent child := by
  refine ⟨fun hok => ?_, h.checkAttach_of_attachable⟩
  rcases tree.attachable_or_refuses parent child with ha | ⟨e, hr⟩
  · exact ha
  · rw [h.checkAttach_of_refuses hr] at hok
    cases hok

theorem Valid.checkAttach_eq_error_iff (h : tree.Valid) :
    tree.checkAttach parent child = .error e ↔ tree.Refuses parent child e := by
  refine ⟨fun herror => ?_, h.checkAttach_of_refuses⟩
  rcases tree.attachable_or_refuses parent child with ha | ⟨e', hr⟩
  · rw [h.checkAttach_of_attachable ha] at herror
    cases herror
  · rw [h.checkAttach_of_refuses hr] at herror
    cases herror
    exact hr

/-- Children that may be adopted only come to be listed. -/
theorem checkChildren_append (hadopt : tree.Adoptable before) (hnew : ∀ c ∈ before, c ∉ seen)
    (children : List NodeId) :
    tree.checkChildren owner seen (before ++ children) =
      tree.checkChildren owner (before.reverse ++ seen) children := by
  induction before generalizing seen with
  | nil => rfl
  | cons c before ih =>
      obtain ⟨hc, hnodup⟩ := List.nodup_cons.mp hadopt.nodup
      obtain ⟨hfirst, hnew⟩ := List.forall_mem_cons.mp hnew
      have hrest : tree.Adoptable before :=
        ⟨hnodup, fun d hd => hadopt.lt_size d (List.mem_cons_of_mem c hd),
          fun d hd => hadopt.unowned d (List.mem_cons_of_mem c hd)⟩
      have hunseen : ∀ d ∈ before, d ∉ c :: seen := by
        intro d hd hin
        rcases List.mem_cons.mp hin with rfl | hin
        · exact hc hd
        · exact hnew d hd hin
      obtain ⟨node, hnode⟩ := exists_get? (hadopt.lt_size c List.mem_cons_self)
      have hfree := hadopt.unowned c List.mem_cons_self
      rw [parent?_of_get? hnode] at hfree
      rw [List.cons_append, checkChildren, get_eq_ok_of_get? hnode, List.reverse_cons,
        List.append_assoc, List.singleton_append, ← ih hrest hunseen]
      simp [bind, Except.bind, hfree, hfirst]

theorem checkChildren_of_offends (ho : tree.Offends seen child e) (after : List NodeId) :
    tree.checkChildren tree.size seen (child :: after) = .error e := by
  rw [checkChildren]
  cases ho with
  | unknown hchild =>
      rw [get_eq_error_of_size_le hchild]
      rfl
  | owned hup =>
      obtain ⟨node, hnode⟩ := exists_get? (lt_size_of_parent? hup)
      rw [parent?_of_get? hnode] at hup
      rw [get_eq_ok_of_get? hnode]
      simp [bind, Except.bind, hup]
  | twice hchild hfree hlisted =>
      obtain ⟨node, hnode⟩ := exists_get? hchild
      rw [parent?_of_get? hnode] at hfree
      rw [get_eq_ok_of_get? hnode]
      simp [bind, Except.bind, hfree, hlisted]

theorem Offends.congr {listed listed' : List NodeId} (h : tree.Offends listed child e)
    (hmem : child ∈ listed → child ∈ listed') : tree.Offends listed' child e := by
  cases h with
  | unknown hchild => exact .unknown hchild
  | owned hup => exact .owned hup
  | twice hchild hfree hlisted => exact .twice hchild hfree (hmem hlisted)

theorem checkChildren_of_adoptable (h : tree.Adoptable children) (owner : NodeId) :
    tree.checkChildren owner [] children = .ok () := by
  have happend : tree.checkChildren owner [] (children ++ []) =
      tree.checkChildren owner (children.reverse ++ []) [] :=
    checkChildren_append h (fun _ _ => List.not_mem_nil) []
  rw [List.append_nil] at happend
  exact happend

theorem checkChildren_of_first_offends (h : tree.Adoptable before)
    (ho : tree.Offends before child e) (after : List NodeId) :
    tree.checkChildren tree.size [] (before ++ child :: after) = .error e := by
  rw [checkChildren_append h fun c _ => List.not_mem_nil, List.append_nil]
  exact checkChildren_of_offends (ho.congr List.mem_reverse.mpr) after

theorem adoptable_or_offends (tree : Tree) (children : List NodeId) :
    tree.Adoptable children ∨ ∃ before child after e, children = before ++ child :: after ∧
      tree.Adoptable before ∧ tree.Offends before child e := by
  induction children using List.reverseRecOn with
  | nil => exact .inl ⟨List.nodup_nil, by simp, by simp⟩
  | append_singleton children c ih =>
      rcases ih with hadopt | ⟨before, child, after, e, rfl, hadopt, ho⟩
      · by_cases hlt : c < tree.size
        · cases hup : tree.parent? c with
          | some owner => exact .inr ⟨children, c, [], _, rfl, hadopt, .owned hup⟩
          | none =>
              by_cases hlisted : c ∈ children
              · exact .inr ⟨children, c, [], _, rfl, hadopt, .twice hlt hup hlisted⟩
              · refine .inl ⟨?_, ?_, ?_⟩
                · exact List.nodup_append.mpr ⟨hadopt.nodup, List.nodup_singleton c,
                    fun a ha b hb hab => hlisted (List.mem_singleton.mp hb ▸ hab ▸ ha)⟩
                · simpa [or_imp, forall_and] using ⟨hadopt.lt_size, hlt⟩
                · simpa [or_imp, forall_and] using ⟨hadopt.unowned, hup⟩
        · exact .inr ⟨children, c, [], _, rfl, hadopt, .unknown (Nat.le_of_not_lt hlt)⟩
      · exact .inr ⟨before, child, after ++ [c], e, by simp, hadopt, ho⟩

theorem checkChildren_eq_ok_iff :
    tree.checkChildren tree.size [] children = .ok () ↔ tree.Adoptable children := by
  refine ⟨fun hok => ?_, fun h => checkChildren_of_adoptable h _⟩
  rcases tree.adoptable_or_offends children with h | ⟨before, child, after, e, rfl, h, ho⟩
  · exact h
  · rw [checkChildren_of_first_offends h ho] at hok
    cases hok

theorem checkChildren_eq_error_iff :
    tree.checkChildren tree.size [] children = .error e ↔
      ∃ before child after, children = before ++ child :: after ∧ tree.Adoptable before ∧
        tree.Offends before child e := by
  constructor
  · intro herror
    rcases tree.adoptable_or_offends children with h | ⟨before, child, after, e', rfl, h, ho⟩
    · rw [checkChildren_of_adoptable h] at herror
      cases herror
    · rw [checkChildren_of_first_offends h ho] at herror
      cases herror
      exact ⟨before, child, after, rfl, h, ho⟩
  · rintro ⟨before, child, after, rfl, h, ho⟩
    exact checkChildren_of_first_offends h ho after

end Tree

end TaggedText
