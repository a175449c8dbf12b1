import TaggedText.Proofs.Ownership.Copying
import TaggedText.Proofs.Ownership.Drafting

/-!
# Sessions

A session holds trees, at first one empty tree. An operation changes one of them or adds a tree:
an empty one, a copy, a resolved copy of a subtree, or the tree of a list of tokens. An operation
that is refused, or that names a tree that is not there, changes nothing.

Main statement: whatever the operations and their order, ownership is sound in every tree of the
session. One step keeps each tree valid, so by induction a run does.
-/
namespace TaggedText

/-- An operation on the trees of a session, which are named by their positions. -/
inductive Operation where
  | create
  | construct (tree : Nat) (content : Content) (children : List NodeId)
  | push (tree : Nat) (parent child : NodeId)
  | setSlot (tree : Nat) (parent : NodeId) (name : String) (child : NodeId)
  | edit (tree : Nat) (id : NodeId) (change : Content → Content)
  | clone (tree : Nat)
  | resolve (tree : Nat) (root : NodeId) (settings : Settings)
  | parse (tokens : List Token)

abbrev Session := List Tree

namespace Session

/-- Changes one tree, unless the change is refused. -/
def update (session : Session) (i : Nat) (f : Tree → Except TreeError Tree) : Session :=
  match session[i]?.map f with
  | some (.ok tree) => session.set i tree
  | _ => session

/-- Adds a tree, if there is one to add. -/
def add (session : Session) (tree? : Option Tree) : Session :=
  session ++ tree?.toList

def step (session : Session) : Operation → Session
  | .create => session.add (some Tree.empty)
  | .construct i content children =>
      session.update i fun tree => (tree.construct content children).map Prod.snd
  | .push i parent child => session.update i fun tree => tree.push parent child
  | .setSlot i parent name child => session.update i fun tree => tree.setSlot parent name child
  | .edit i id change => session.update i fun tree => .ok (tree.edit id change)
  | .clone i => session.add session[i]?
  | .resolve i root settings =>
      session.add (session[i]?.bind fun tree =>
        (tree.resolve root settings).toOption.map Document.tree)
  | .parse tokens => session.add ((Document.ofTokens tokens).toOption.map Document.tree)

/-- The trees after a list of operations. -/
def run (operations : List Operation) : Session :=
  operations.foldl step [Tree.empty]

variable {session : Session} {P : Tree → Prop}

theorem forall_update {i : Nat} {f : Tree → Except TreeError Tree} (h : ∀ tree ∈ session, P tree)
    (hf : ∀ tree tree', P tree → f tree = .ok tree' → P tree') :
    ∀ tree ∈ session.update i f, P tree := by
  unfold update
  split
  next tree' hmap =>
    obtain ⟨tree, hget, hok⟩ := Option.map_eq_some_iff.mp hmap
    intro t ht
    rcases List.mem_or_eq_of_mem_set ht with ht | rfl
    · exact h t ht
    · exact hf tree t (h tree (List.mem_of_getElem? hget)) hok
  next => exact h

theorem forall_add {tree? : Option Tree} (h : ∀ tree ∈ session, P tree)
    (ht : ∀ tree, tree? = some tree → P tree) : ∀ tree ∈ session.add tree?, P tree := by
  intro tree hin
  rcases List.mem_append.mp hin with hin | hin
  · exact h tree hin
  · exact ht tree (Option.mem_toList.mp hin)

/-- One operation keeps every tree valid. -/
theorem valid_step (h : ∀ tree ∈ session, tree.Valid) (operation : Operation) :
    ∀ tree ∈ session.step operation, tree.Valid := by
  cases operation with
  | create => exact forall_add h fun tree ht => Option.some.inj ht ▸ Tree.valid_empty
  | construct i content children =>
      refine forall_update h fun tree tree' hv hok => ?_
      cases hc : tree.construct content children with
      | error e => rw [hc] at hok; cases hok
      | ok made =>
          rw [hc] at hok
          cases hok
          exact hv.construct hc
  | push i parent child => exact forall_update h fun _ _ hv hok => hv.push hok
  | setSlot i parent name child => exact forall_update h fun _ _ hv hok => hv.setSlot hok
  | edit i id change =>
      refine forall_update h fun tree tree' hv hok => ?_
      cases hok
      exact hv.edit id change
  | clone i => exact forall_add h fun tree ht => h tree (List.mem_of_getElem? ht)
  | resolve i root settings =>
      refine forall_add h fun tree ht => ?_
      obtain ⟨source, hsource, ht⟩ := Option.bind_eq_some_iff.mp ht
      obtain ⟨document, hdocument, rfl⟩ := Option.map_eq_some_iff.mp ht
      exact (h source (List.mem_of_getElem? hsource)).resolve
        (toOption_eq_some_iff.mp hdocument)
  | parse tokens =>
      refine forall_add h fun tree ht => ?_
      obtain ⟨document, hdocument, rfl⟩ := Option.map_eq_some_iff.mp ht
      exact Document.valid_of_ofTokens (toOption_eq_some_iff.mp hdocument)

/-- Every run keeps every tree valid. -/
theorem valid_of_mem_run {operations : List Operation} {tree : Tree}
    (h : tree ∈ run operations) : tree.Valid := by
  have hrun : ∀ (operations : List Operation) (session : Session), (∀ t ∈ session, t.Valid) →
      ∀ t ∈ operations.foldl step session, t.Valid := by
    intro operations
    induction operations with
    | nil => exact fun _ hs => hs
    | cons operation operations ih => exact fun _ hs => ih _ (valid_step hs operation)
  refine hrun operations [Tree.empty] (fun t ht => ?_) tree h
  exact List.mem_singleton.mp ht ▸ Tree.valid_empty

end Session

/-- Ownership in a tree, said of its nodes. -/
structure Tree.WellOwned (tree : Tree) : Prop where
  /-- Every link leads to a node. -/
  links_lt : ∀ id node, tree.get? id = some node →
    (∀ c ∈ node.children, c < tree.size) ∧ (∀ slot ∈ node.slots, slot.2 < tree.size) ∧
      ∀ owner ∈ node.parent, owner < tree.size
  /-- A node names exactly the owner that has it as a child or in a slot. -/
  owner_iff : ∀ owner id, tree.parent? id = some owner ↔
    ∃ node, tree.get? owner = some node ∧ (id ∈ node.children ∨ ∃ name, (name, id) ∈ node.slots)
  /-- All lists of children and all slots of the tree together hold no node twice. -/
  owned_once : (tree.nodes.toList.flatMap Node.owned).Nodup
  /-- The way up from a node ends at a node without an owner. -/
  grounded : ∀ id, Links.Grounded tree.parent? id
  serials_nodup : tree.serials.Nodup
  serials_lt : ∀ n ∈ tree.serials, n < tree.nextSerial

theorem Tree.Valid.wellOwned {tree : Tree} (h : tree.Valid) : tree.WellOwned where
  links_lt := by
    intro id node hn
    have howned : ∀ c ∈ node.owned, c < tree.size := fun c hc =>
      h.owned_lt_size (ownedBy_of_get? hn ▸ hc)
    refine ⟨fun c hc => howned c (List.mem_append_right _ hc), fun slot hslot => ?_, ?_⟩
    · exact howned slot.2 (List.mem_append_left _ (List.mem_map_of_mem hslot))
    · intro owner howner
      exact h.owner_lt_size ((parent?_of_get? hn).trans howner)
  owner_iff := by
    intro owner id
    rw [h.forest.owner_iff, mem_ownedBy_iff]
    simp only [Node.owned, List.mem_append, List.mem_map, Prod.exists, exists_eq_right, or_comm]
  owned_once := h.nodup_owned
  grounded := h.forest.grounded
  serials_nodup := h.serials_nodup
  serials_lt := h.serials_lt

/-- In every tree that operations lead to, ownership is sound. -/
theorem wellOwned_of_mem_run (operations : List Operation) (tree : Tree)
    (h : tree ∈ Session.run operations) : tree.WellOwned :=
  (Session.valid_of_mem_run h).wellOwned

/-- A slot is filled and filled again, a push that would close a cycle is refused, the node that
was freed is attached elsewhere, and the tree is resolved. -/
theorem wellOwned_of_mem_run_refill :
    ∃ tree ∈ Session.run
        [.construct 0 {} [], .construct 0 {} [0], .construct 0 {} [], .construct 0 {} [],
          .setSlot 0 1 "title" 2, .setSlot 0 1 "title" 3, .push 0 0 1, .push 0 3 2,
          .resolve 0 1 {}],
      tree.nodes.toList.map Node.owned = [[1, 3], [2], [], []] ∧ tree.WellOwned := by
  have hrun : (Session.run
      [.construct 0 {} [], .construct 0 {} [0], .construct 0 {} [], .construct 0 {} [],
        .setSlot 0 1 "title" 2, .setSlot 0 1 "title" 3, .push 0 0 1, .push 0 3 2,
        .resolve 0 1 {}])[1]?.map (fun tree => tree.nodes.toList.map Node.owned) =
      some [[1, 3], [2], [], []] := by
    decide
  obtain ⟨tree, htree, howned⟩ := Option.map_eq_some_iff.mp hrun
  have hmem := List.mem_of_getElem? htree
  exact ⟨tree, hmem, howned, wellOwned_of_mem_run _ tree hmem⟩

end TaggedText
