import TaggedText.Proofs.Session
import TaggedText.Proofs.Walk

/-!
# Walking through the trees of a session

The order in which a walk meets nodes is described by recursion: for each node that the start owns,
slots before children, that node and then what the walk below it meets. In a valid tree the walk
with a stack solves this equation, and it is the only solution. It meets exactly the nodes that
have the start above them, none twice, and is done after a step for each.
-/
namespace TaggedText

namespace Links

variable {up : NodeId → Option NodeId} {down : NodeId → List NodeId} {a b id : NodeId}
variable {ids order order' : List NodeId} {below : NodeId → List NodeId}

namespace Preorder

theorem eq_flatMap (h : Preorder down ids order)
    (hbelow : ∀ id, below id = (down id).flatMap fun c => c :: below c) :
    order = ids.flatMap fun c => c :: below c := by
  induction h with
  | nil => rfl
  | cons _ _ ihbelow ihrest => rw [List.flatMap_cons, hbelow, ← ihbelow, ← ihrest, List.cons_append]

/-- There is one order. -/
theorem unique (h : Preorder down ids order) (h' : Preorder down ids order') : order = order' := by
  induction h generalizing order' with
  | nil =>
      cases h'
      rfl
  | cons _ _ ihbelow ihrest =>
      cases h' with
      | cons hbelow hrest => rw [ihbelow hbelow, ihrest hrest]

theorem flatMap (h : ∀ c ∈ ids, Preorder down (down c) (below c)) :
    Preorder down ids (ids.flatMap fun c => c :: below c) := by
  induction ids with
  | nil => exact .nil
  | cons c ids ih =>
      obtain ⟨hc, hids⟩ := List.forall_mem_cons.mp h
      rw [List.flatMap_cons, List.cons_append]
      exact .cons hc (ih hids)

end Preorder

namespace Forest

/-- The order from some nodes downwards holds the nodes that have one of them above. -/
theorem mem_order_iff (h : Forest up down) (ho : Preorder down ids order) :
    b ∈ order ↔ ∃ a ∈ ids, Above up a b := by
  constructor
  · intro hb
    induction ho with
    | nil => cases hb
    | @cons id ids below rest _ _ ihbelow ihrest =>
        rcases List.mem_cons.mp hb with rfl | hb
        · exact ⟨b, List.mem_cons_self, .here⟩
        · rcases List.mem_append.mp hb with hb | hb
          · obtain ⟨a, ha, habove⟩ := ihbelow hb
            have hup := (h.owner_iff id a).mpr ha
            exact ⟨id, List.mem_cons_self, (Above.further hup .here).trans habove⟩
          · obtain ⟨a, ha, habove⟩ := ihrest hb
            exact ⟨a, List.mem_cons_of_mem id ha, habove⟩
  · rintro ⟨a, ha, habove⟩
    induction habove with
    | here => exact ho.mem_of_mem ha
    | further hup _ ih => exact ho.mem_of_mem_down ih ((h.owner_iff _ _).mp hup)

/-- A node is below another if it is that of a node which the other owns, or below such a node. -/
theorem exists_owned_above_iff (h : Forest up down) :
    (∃ c ∈ down a, Above up c b) ↔ b ≠ a ∧ Above up a b := by
  constructor
  · rintro ⟨c, hc, habove⟩
    have hup := (h.owner_iff a c).mpr hc
    refine ⟨?_, (Above.further hup .here).trans habove⟩
    rintro rfl
    exact (h.grounded c).not_above_owner hup habove
  · rintro ⟨hne, habove⟩
    rcases habove.eq_or_owner with heq | ⟨c, hup, hbelow⟩
    · exact absurd heq hne
    · exact ⟨c, (h.owner_iff a c).mp hup, hbelow⟩

end Forest

end Links

namespace Tree

open Links

variable {tree : Tree} {id : NodeId}

/-- The recursion in document order: for each node owned, slots before children, that node and
then what is below it. -/
def IsPreorder (tree : Tree) (below : NodeId → List NodeId) : Prop :=
  ∀ id, below id =
    match tree.get? id with
    | some node => (node.slots.map Prod.snd ++ node.children).flatMap fun c => c :: below c
    | none => []

/-- What the walks through a tree meet. -/
structure Traversed (tree : Tree) : Prop where
  walk_isPreorder : tree.IsPreorder tree.walk
  walk_unique : ∀ below, tree.IsPreorder below → below = tree.walk
  mem_walk_iff : ∀ start id, id ∈ tree.walk start ↔ id ≠ start ∧ Above tree.parent? start id
  nodup_walk : ∀ start, (tree.walk start).Nodup
  /-- With a step for each node that it meets a walk is done, and more steps meet no more. -/
  walk_ends : ∀ start fuel, (tree.walk start).length ≤ fuel →
    tree.walkFrom fuel (tree.ownedBy start) = tree.walk start
  length_walk_le : ∀ start, (tree.walk start).length ≤ tree.size
  walk_unknown : ∀ start, tree.get? start = none → tree.walk start = []

theorem isPreorder_iff {below : NodeId → List NodeId} :
    tree.IsPreorder below ↔
      ∀ id, below id = (tree.ownedBy id).flatMap fun c => c :: below c := by
  refine forall_congr' fun id => ?_
  unfold ownedBy
  cases tree.get? id with
  | none => rfl
  | some node => rfl

theorem walk_eq_nil_of_get?_eq_none (h : tree.get? id = none) : tree.walk id = [] := by
  rw [walk, h]
  cases tree.size <;> rfl

/-- The walk below a node meets the nodes in document order. -/
theorem Valid.preorder_walk (h : tree.Valid) (id : NodeId) :
    Preorder tree.ownedBy (tree.ownedBy id) (tree.walk id) ∧ (tree.walk id).Nodup ∧
      (tree.walk id).length ≤ tree.size := by
  by_cases hid : id < tree.size
  · obtain ⟨order, horder⟩ := h.exists_documentOrder hid
    obtain rfl := horder.eq_walk
    obtain ⟨rest, heq, hrest⟩ := Preorder.singleton_iff.mp horder.preorder
    obtain rfl := List.tail_eq_of_cons_eq heq
    exact ⟨hrest, (List.nodup_cons.mp horder.nodup).2,
      Nat.le_trans (Nat.le_succ _) horder.length_le⟩
  · have hsize := Nat.le_of_not_lt hid
    rw [ownedBy_eq_nil_of_size_le hsize, walk_eq_nil_of_get?_eq_none (get?_eq_none_iff.mpr hsize)]
    exact ⟨.nil, List.nodup_nil, Nat.zero_le _⟩

theorem Valid.mem_walk_iff (h : tree.Valid) (start id : NodeId) :
    id ∈ tree.walk start ↔ id ≠ start ∧ Above tree.parent? start id := by
  rw [h.forest.mem_order_iff (h.preorder_walk start).1, h.forest.exists_owned_above_iff]

theorem Valid.walk_eq_flatMap (h : tree.Valid) (id : NodeId) :
    tree.walk id = (tree.ownedBy id).flatMap fun c => c :: tree.walk c :=
  (h.preorder_walk id).1.unique (Preorder.flatMap fun c _ => (h.preorder_walk c).1)

theorem Valid.traversed (h : tree.Valid) : tree.Traversed where
  walk_isPreorder := isPreorder_iff.mpr h.walk_eq_flatMap
  walk_unique below hbelow := by
    funext id
    rw [isPreorder_iff] at hbelow
    rw [hbelow id]
    exact ((h.preorder_walk id).1.eq_flatMap hbelow).symm
  mem_walk_iff := h.mem_walk_iff
  nodup_walk start := (h.preorder_walk start).2.1
  walk_ends start _ hfuel := walkFrom_eq (h.preorder_walk start).1 hfuel
  length_walk_le start := (h.preorder_walk start).2.2
  walk_unknown _ := walk_eq_nil_of_get?_eq_none

end Tree

/-- In every tree that operations lead to, walks meet the nodes in document order. -/
theorem traversed_of_mem_run (operations : List Operation) (tree : Tree)
    (h : tree ∈ Session.run operations) : tree.Traversed :=
  (Session.valid_of_mem_run h).traversed

/-- A title in a slot comes before the child that was there earlier, and below an index that is not
taken there is nothing. -/
theorem traversed_of_mem_run_title :
    ∃ tree ∈ Session.run
        [.construct 0 {} [], .construct 0 {} [], .construct 0 {} [0], .setSlot 0 2 "title" 1,
          .construct 0 {} [2]],
      tree.Traversed ∧ tree.walk 3 = [2, 1, 0] ∧ tree.walk 4 = [] := by
  have hrun : (Session.run
      [.construct 0 {} [], .construct 0 {} [], .construct 0 {} [0], .setSlot 0 2 "title" 1,
        .construct 0 {} [2]])[0]?.map (fun tree => (tree.walk 3, tree.walk 4)) =
      some ([2, 1, 0], []) := by
    decide
  obtain ⟨tree, htree, hwalks⟩ := Option.map_eq_some_iff.mp hrun
  obtain ⟨hthree, hfour⟩ := Prod.mk.inj hwalks
  have hmem := List.mem_of_getElem? htree
  exact ⟨tree, hmem, traversed_of_mem_run _ tree hmem, hthree, hfour⟩

end TaggedText
