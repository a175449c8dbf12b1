import TaggedText.Proofs.Ownership.Effects

/-!
# Operations in place

An operation that changes a tree in place checks all it has to before it writes, so where it is
refused the tree is as it was. Where it is not, it leaves the tree that the operation on trees as
values gives, and so changes what that one changes.
-/
namespace TaggedText

namespace InPlace

variable {α β : Type}

/-- An operation on trees as values, as one that leaves the tree alone where it is refused. -/
def outcome (tree : Tree) : Except TreeError (α × Tree) → Except TreeError α × Tree
  | .ok (a, after) => (.ok a, after)
  | .error e => (.error e, tree)

theorem outcome_eq_ok_iff {tree after : Tree} {result : Except TreeError (α × Tree)} {a : α} :
    outcome tree result = (.ok a, after) ↔ result = .ok (a, after) := by
  rcases result with e | ⟨b, made⟩
  · simp [outcome]
  · simp [outcome]

theorem eq_of_outcome_eq_error {tree after : Tree} {result : Except TreeError (α × Tree)}
    {e : TreeError} (h : outcome tree result = (.error e, after)) : after = tree := by
  rcases result with e' | ⟨a, made⟩
  · exact (Prod.mk.inj h).2.symm
  · cases h

@[simp] theorem apply_pure (a : α) (tree : Tree) :
    (pure a : InPlace α).apply tree = (.ok a, tree) := rfl

@[simp] theorem apply_bind (program : InPlace α) (next : α → InPlace β) (tree : Tree) :
    (program >>= next).apply tree =
      match program.apply tree with
      | (.ok a, after) => (next a).apply after
      | (.error e, after) => (.error e, after) := by
  rcases h : program.apply tree with ⟨e | a, after⟩
  · have hrun : StateT.run (ExceptT.run program) tree = (.error e, after) := h
    simp only [apply, ExceptT.run_bind, StateT.run_bind, hrun]
    rfl
  · have hrun : StateT.run (ExceptT.run program) tree = (.ok a, after) := h
    simp only [apply, ExceptT.run_bind, StateT.run_bind, hrun]
    rfl

@[simp] theorem apply_get (tree : Tree) :
    (get : InPlace Tree).apply tree = (.ok tree, tree) := rfl

@[simp] theorem apply_modify (f : Tree → Tree) (tree : Tree) :
    (modify f : InPlace Unit).apply tree = (.ok (), f tree) := rfl

@[simp] theorem apply_setParent (id : NodeId) (parent : Option NodeId) (tree : Tree) :
    (setParent id parent).apply tree = (.ok (), tree.setParent id parent) := rfl

@[simp] theorem apply_allocate (tree : Tree) :
    allocate.apply tree = (.ok tree.nextSerial, { tree with nextSerial := tree.nextSerial + 1 }) :=
  rfl

/-- A check writes nothing. -/
@[simp] theorem apply_check (f : Tree → Except TreeError α) (tree : Tree) :
    (check f).apply tree = (f tree, tree) := by
  simp only [check, apply_bind, apply_get]
  cases f tree with
  | error e => rfl
  | ok a => rfl

/-- However many children pass before one is refused, nothing is written. -/
@[simp] theorem apply_checkChildren (owner : NodeId) (seen children : List NodeId) (tree : Tree) :
    (checkChildren owner seen children).apply tree =
      (tree.checkChildren owner seen children, tree) := by
  induction children generalizing seen with
  | nil => rfl
  | cons child children ih =>
      simp only [checkChildren, apply_bind, apply_check, Tree.checkChildren]
      cases tree.get child with
      | error e => rfl
      | ok node =>
          simp only [bind, Except.bind]
          cases node.parent with
          | some parent => rfl
          | none =>
              dsimp only
              split
              next => rfl
              next => exact ih (child :: seen)

@[simp] theorem apply_forM_setParent (owner : NodeId) (children : List NodeId) (tree : Tree) :
    (children.forM fun child => setParent child (some owner)).apply tree =
      (.ok (), tree.adoptAll owner children) := by
  induction children generalizing tree with
  | nil => rfl
  | cons child children ih =>
      have hfirst : ((child :: children).forM fun child => setParent child (some owner)) =
          (setParent child (some owner) >>= fun _ =>
            children.forM fun child => setParent child (some owner)) := rfl
      rw [hfirst, apply_bind, apply_setParent]
      exact ih _

theorem apply_construct (content : Content) (children : List NodeId) (tree : Tree) :
    (construct content children).apply tree = outcome tree (tree.construct content children) := by
  simp only [construct, apply_bind, apply_get, apply_checkChildren, Tree.construct]
  cases tree.checkChildren tree.size [] children with
  | error e => rfl
  | ok u =>
      simp only [apply_forM_setParent, apply_allocate, apply_modify, apply_pure,
        Tree.nextSerial_adoptAll]
      rfl

theorem apply_push (parent child : NodeId) (tree : Tree) :
    (push parent child).apply tree =
      outcome tree ((tree.push parent child).map fun after => ((), after)) := by
  simp only [push, apply_bind, apply_check, Tree.push]
  cases tree.checkAttach parent child with
  | error e => rfl
  | ok u => rfl

theorem apply_setSlot (parent : NodeId) (name : String) (child : NodeId) (tree : Tree) :
    (setSlot parent name child).apply tree =
      outcome tree ((tree.setSlot parent name child).map fun after => ((), after)) := by
  simp only [setSlot, apply_bind, apply_check, Tree.setSlot]
  cases tree.checkAttach parent child with
  | error e => rfl
  | ok u =>
      simp only [apply_setParent, apply_get, apply_modify, Tree.slot?_setParent]
      change _ = outcome tree (.ok ((), tree.attach parent child _ (tree.slot? parent name)))
      cases tree.slot? parent name with
      | none => rfl
      | some previous => rfl

end InPlace

/-- What the operations do to a tree in place. -/
structure Tree.AtomicEdits (tree : Tree) : Prop where
  construct_refused : ∀ content children e after,
    (InPlace.construct content children).apply tree = (.error e, after) → after = tree
  push_refused : ∀ parent child e after,
    (InPlace.push parent child).apply tree = (.error e, after) → after = tree
  setSlot_refused : ∀ parent name child e after,
    (InPlace.setSlot parent name child).apply tree = (.error e, after) → after = tree
  constructed : ∀ content children id after,
    (InPlace.construct content children).apply tree = (.ok id, after) →
      tree.Constructed content children id after
  pushed : ∀ parent child after,
    (InPlace.push parent child).apply tree = (.ok (), after) → tree.Pushed parent child after
  slotSet : ∀ parent name child after,
    (InPlace.setSlot parent name child).apply tree = (.ok (), after) →
      tree.SlotSet parent name child after
  /-- In place or as values, the operations answer alike and give the same trees. -/
  apply_construct : ∀ content children, (InPlace.construct content children).apply tree =
    InPlace.outcome tree (tree.construct content children)
  apply_push : ∀ parent child, (InPlace.push parent child).apply tree =
    InPlace.outcome tree ((tree.push parent child).map fun after => ((), after))
  apply_setSlot : ∀ parent name child, (InPlace.setSlot parent name child).apply tree =
    InPlace.outcome tree ((tree.setSlot parent name child).map fun after => ((), after))

theorem Tree.Valid.atomicEdits {tree : Tree} (h : tree.Valid) : tree.AtomicEdits where
  construct_refused content children e after hr :=
    InPlace.eq_of_outcome_eq_error ((InPlace.apply_construct content children tree).symm.trans hr)
  push_refused parent child e after hr :=
    InPlace.eq_of_outcome_eq_error ((InPlace.apply_push parent child tree).symm.trans hr)
  setSlot_refused parent name child e after hr :=
    InPlace.eq_of_outcome_eq_error ((InPlace.apply_setSlot parent name child tree).symm.trans hr)
  constructed content children id after hok := by
    rw [InPlace.apply_construct, InPlace.outcome_eq_ok_iff] at hok
    exact Tree.constructed_of_construct hok
  pushed parent child after hok := by
    rw [InPlace.apply_push, InPlace.outcome_eq_ok_iff] at hok
    obtain ⟨_, hpush, hafter⟩ := map_eq_ok_iff.mp hok
    cases hafter
    exact h.pushed hpush
  slotSet parent name child after hok := by
    rw [InPlace.apply_setSlot, InPlace.outcome_eq_ok_iff] at hok
    obtain ⟨_, hset, hafter⟩ := map_eq_ok_iff.mp hok
    cases hafter
    exact h.slotSet hset
  apply_construct content children := InPlace.apply_construct content children tree
  apply_push parent child := InPlace.apply_push parent child tree
  apply_setSlot parent name child := InPlace.apply_setSlot parent name child tree

/-- In every tree that operations lead to, an operation that is refused writes nothing, and one that
is not writes only what it must. -/
theorem atomicEdits_of_mem_run (operations : List Operation) (tree : Tree)
    (h : tree ∈ Session.run operations) : tree.AtomicEdits :=
  (Session.valid_of_mem_run h).atomicEdits

/-- A child that is listed twice is refused after it passed once, and a node with a child of its own
is taken out of a slot. -/
theorem atomicEdits_of_mem_run_refill :
    ∃ tree ∈ Session.run
        [.construct 0 {} [], .construct 0 {} [], .construct 0 {} [1], .construct 0 {} [],
          .setSlot 0 0 "title" 2],
      tree.AtomicEdits ∧
        (InPlace.construct {} [3, 3]).apply tree = (.error (.alreadyAttached 3 4), tree) ∧
        ∃ after, (InPlace.setSlot 0 "title" 3).apply tree = (.ok (), after) ∧
          tree.SlotSet 0 "title" 3 after ∧ tree.Released 0 2 after ∧ after.walk 2 = [1] := by
  have hrun : (Session.run
      [.construct 0 {} [], .construct 0 {} [], .construct 0 {} [1], .construct 0 {} [],
        .setSlot 0 0 "title" 2])[0]?.map (fun tree =>
          (((InPlace.construct {} [3, 3]).apply tree).1,
            ((InPlace.setSlot 0 "title" 3).apply tree).1, tree.slot? 0 "title", tree.walk 2)) =
      some (.error (.alreadyAttached 3 4), .ok (), some 2, [1]) := by
    decide
  obtain ⟨tree, htree, hanswers⟩ := Option.map_eq_some_iff.mp hrun
  simp only [Prod.mk.injEq] at hanswers
  obtain ⟨htwice, hset, hslot, hwalk⟩ := hanswers
  have hmem := List.mem_of_getElem? htree
  have hedits := atomicEdits_of_mem_run _ tree hmem
  refine ⟨tree, hmem, hedits, Prod.ext htwice ?_, _, Prod.ext hset rfl, ?_⟩
  · exact hedits.construct_refused {} [3, 3] _ _ (Prod.ext htwice rfl)
  · have hslotSet := hedits.slotSet 0 "title" 3 _ (Prod.ext hset rfl)
    obtain ⟨-, -, hreleased⟩ := hslotSet.previous 2 hslot
    exact ⟨hslotSet, hreleased, hreleased.walk_eq.trans hwalk⟩

end TaggedText
