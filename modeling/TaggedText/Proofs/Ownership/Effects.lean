import TaggedText.Proofs.Ownership.Attaching
import TaggedText.Proofs.Traversal
import TaggedText.Tree.InPlace

/-!
# What an operation on a tree changes

The tree that an operation gives is described node by node: which nodes are written, what they hold
then, and that no other node and no other number differs.

A node that is taken out of a slot only ceases to name its owner. Nothing that was written is below
it, so the walk below it meets the same nodes, and the guard lets it be attached to any node
outside.
-/
namespace TaggedText

namespace Entries

variable {α : Type}

/-- Dictionaries before and after a value is put under a key: a new key comes last, and a key that
is there keeps its place. -/
inductive Put (key : String) (value : α) : Entries α → Entries α → Prop
  | last {entries : Entries α} : key ∉ keys entries →
      Put key value entries (entries ++ [(key, value)])
  | replace (before : Entries α) {after : Entries α} {old : α} : key ∉ keys before →
      Put key value (before ++ (key, old) :: after) (before ++ (key, value) :: after)

theorem put_insert (key : String) (value : α) (entries : Entries α) :
    Put key value entries (insert key value entries) := by
  induction entries with
  | nil => exact .last List.not_mem_nil
  | cons entry rest ih =>
      obtain ⟨k, v⟩ := entry
      by_cases hk : k = key
      · subst hk
        rw [insert, if_pos rfl]
        exact .replace [] List.not_mem_nil
      · rw [insert, if_neg hk]
        have hfresh : ∀ {before : Entries α}, key ∉ keys before →
            key ∉ keys ((k, v) :: before) := by
          intro before hbefore hin
          rcases List.mem_cons.mp hin with heq | hin
          · exact hk heq.symm
          · exact hbefore hin
        generalize insert key value rest = inserted at ih
        cases ih with
        | last hrest => exact .last (hfresh hrest)
        | replace before hbefore => exact .replace ((k, v) :: before) (hfresh hbefore)

end Entries

namespace Tree

open Links

variable {tree after : Tree} {id owner parent child : NodeId} {node : Node}
variable {content : Content} {children : List NodeId} {name : String}

/-- A node was made over the children, and they name it. -/
structure Constructed (tree : Tree) (content : Content) (children : List NodeId) (id : NodeId)
    (after : Tree) : Prop where
  id_eq : id = tree.size
  size_eq : after.size = tree.size + 1
  nextSerial_eq : after.nextSerial = tree.nextSerial + 1
  made : after.get? id =
    some { serial := tree.nextSerial, content := content, children := children }
  children_eq : ∀ c ∈ children, ∃ node, tree.get? c = some node ∧
    after.get? c = some { node with parent := some id }
  others : ∀ i, i ≠ id → i ∉ children → after.get? i = tree.get? i

/-- A node became the last child of another. -/
structure Pushed (tree : Tree) (parent child : NodeId) (after : Tree) : Prop where
  size_eq : after.size = tree.size
  nextSerial_eq : after.nextSerial = tree.nextSerial
  apart : child ≠ parent
  child_eq : ∃ node, tree.get? child = some node ∧
    after.get? child = some { node with parent := some parent }
  parent_eq : ∃ node, tree.get? parent = some node ∧
    after.get? parent = some { node with children := node.children ++ [child] }
  others : ∀ i, i ≠ child → i ≠ parent → after.get? i = tree.get? i

/-- A node that was in a slot of `parent` has no owner, and all below it is as it was. -/
structure Released (tree : Tree) (parent freed : NodeId) (after : Tree) : Prop where
  freed_eq : ∃ node, tree.get? freed = some node ∧ node.parent = some parent ∧
    after.get? freed = some { node with parent := none }
  walk_eq : after.walk freed = tree.walk freed
  below : ∀ i ∈ tree.walk freed, after.get? i = tree.get? i
  /-- Any node that is neither the one that was freed nor below it may own it. -/
  attachable : ∀ owner < after.size, owner ≠ freed → owner ∉ after.walk freed →
    (∃ t, after.push owner freed = .ok t) ∧ ∀ name, ∃ t, after.setSlot owner name freed = .ok t
  adoptable : ∀ content, ∃ made, after.construct content [freed] = .ok made

/-- A node was put into a slot of another, and what was in the slot was freed. -/
structure SlotSet (tree : Tree) (parent : NodeId) (name : String) (child : NodeId) (after : Tree) :
    Prop where
  size_eq : after.size = tree.size
  nextSerial_eq : after.nextSerial = tree.nextSerial
  apart : child ≠ parent
  child_eq : ∃ node, tree.get? child = some node ∧
    after.get? child = some { node with parent := some parent }
  parent_eq : ∃ node slots, tree.get? parent = some node ∧ Entries.Put name child node.slots slots ∧
    after.get? parent = some { node with slots := slots }
  previous : ∀ freed, tree.slot? parent name = some freed →
    freed ≠ child ∧ freed ≠ parent ∧ tree.Released parent freed after
  others : ∀ i, i ≠ child → i ≠ parent → tree.slot? parent name ≠ some i →
    after.get? i = tree.get? i

theorem get?_setParent_self (h : tree.get? id = some node) (up : Option NodeId) :
    (tree.setParent id up).get? id = some { node with parent := up } := by
  rw [setParent, get?_modify, if_pos rfl, h, Option.map_some]

theorem get?_setParent_of_ne {i : NodeId} (h : i ≠ id) (up : Option NodeId) :
    (tree.setParent id up).get? i = tree.get? i := by
  rw [setParent, get?_modify, if_neg (Ne.symm h)]

theorem get?_adoptAll (tree : Tree) (owner : NodeId) (children : List NodeId) (i : NodeId) :
    (tree.adoptAll owner children).get? i =
      if i ∈ children then (tree.get? i).map fun node => { node with parent := some owner }
      else tree.get? i := by
  induction children generalizing tree with
  | nil => rfl
  | cons child children ih =>
      have hstep : tree.adoptAll owner (child :: children) =
          (tree.setParent child (some owner)).adoptAll owner children := rfl
      rw [hstep, ih, setParent, get?_modify]
      by_cases hi : child = i
      · subst hi
        by_cases hin : child ∈ children <;> simp [hin, Function.comp_def]
      · simp [hi, Ne.symm hi]

theorem nextSerial_adoptAll (tree : Tree) (owner : NodeId) (children : List NodeId) :
    (tree.adoptAll owner children).nextSerial = tree.nextSerial := by
  induction children generalizing tree with
  | nil => rfl
  | cons child children ih => exact ih (tree.setParent child (some owner))

theorem slot?_setParent (tree : Tree) (id : NodeId) (up : Option NodeId) (owner : NodeId)
    (name : String) : (tree.setParent id up).slot? owner name = tree.slot? owner name := by
  simp only [slot?, setParent, get?_modify]
  split
  · cases tree.get? owner <;> rfl
  · rfl

section
variable {f : Node → Node} {freed : Option NodeId}

theorem get?_attach (tree : Tree) (parent child : NodeId) (f : Node → Node)
    (freed : Option NodeId) {i : NodeId} (hi : i ∉ freed) :
    (tree.attach parent child f freed).get? i =
      ((tree.setParent child (some parent)).modify parent f).get? i := by
  cases freed with
  | none => rfl
  | some id => exact get?_setParent_of_ne (fun heq => hi (Option.mem_some.mpr heq.symm)) none

theorem get?_attach_child (h : tree.get? child = some node) (hne : child ≠ parent)
    (hfreed : child ∉ freed) :
    (tree.attach parent child f freed).get? child = some { node with parent := some parent } := by
  rw [get?_attach _ _ _ _ _ hfreed, get?_modify, if_neg (Ne.symm hne), get?_setParent_self h]

theorem get?_attach_parent (h : tree.get? parent = some node) (hne : child ≠ parent)
    (hfreed : parent ∉ freed) :
    (tree.attach parent child f freed).get? parent = some (f node) := by
  rw [get?_attach _ _ _ _ _ hfreed, get?_modify, if_pos rfl, get?_setParent_of_ne (Ne.symm hne), h,
    Option.map_some]

theorem get?_attach_of_ne {i : NodeId} (hchild : i ≠ child) (hparent : i ≠ parent)
    (hfreed : i ∉ freed) : (tree.attach parent child f freed).get? i = tree.get? i := by
  rw [get?_attach _ _ _ _ _ hfreed, get?_modify, if_neg (Ne.symm hparent),
    get?_setParent_of_ne hchild]

theorem get?_attach_freed (h : tree.get? id = some node) (hchild : id ≠ child)
    (hparent : id ≠ parent) :
    (tree.attach parent child f (some id)).get? id = some { node with parent := none } := by
  refine get?_setParent_self ?_ none
  rw [get?_modify, if_neg (Ne.symm hparent), get?_setParent_of_ne hchild, h]

end

theorem constructed_of_construct {made : NodeId × Tree}
    (h : tree.construct content children = .ok made) :
    tree.Constructed content children made.1 made.2 := by
  obtain ⟨hcheck, hid, htree⟩ := construct_eq h
  rw [hid, htree]
  have hsize : (tree.adoptAll tree.size children).size = tree.size := (adoptAll_frame ..).1
  have hlt := (checkChildren_eq_ok_iff.mp hcheck).lt_size
  refine ⟨rfl, ?_, rfl, ?_, ?_, ?_⟩
  · rw [size_grow, hsize]
  · rw [get?_grow, if_pos hsize.symm]
  · intro c hc
    obtain ⟨node, hnode⟩ := exists_get? (hlt c hc)
    refine ⟨node, hnode, ?_⟩
    rw [get?_grow_of_lt (by rw [hsize]; exact hlt c hc), get?_adoptAll, if_pos hc, hnode,
      Option.map_some]
  · intro i hi hout
    rw [get?_grow, hsize, if_neg hi, get?_adoptAll, if_neg hout]

theorem Valid.pushed (h : tree.Valid) (hp : tree.push parent child = .ok after) :
    tree.Pushed parent child after := by
  obtain ⟨hcheck, rfl⟩ := push_eq hp
  have hfit := h.checkAttach_eq_ok_iff.mp hcheck
  have hne := hfit.ne
  obtain ⟨above, hparent⟩ := exists_get? hfit.parent_lt
  obtain ⟨node, hchild⟩ := exists_get? hfit.child_lt
  refine ⟨size_attach .., nextSerial_attach .., hne, ⟨node, hchild, ?_⟩, ⟨above, hparent, ?_⟩, ?_⟩
  · exact get?_attach_child hchild hne (by simp)
  · exact get?_attach_parent hparent hne (by simp)
  · exact fun i hi hip => get?_attach_of_ne hi hip (by simp)

theorem Valid.parent?_of_slot? (h : tree.Valid) (hslot : tree.slot? parent name = some id) :
    tree.parent? id = some parent := by
  obtain ⟨node, hnode, hget⟩ := Option.bind_eq_some_iff.mp hslot
  rw [h.forest.owner_iff, ownedBy_of_get? hnode]
  exact List.mem_append_left _ (Entries.mem_values_of_get? hget)

/-- The walk below a node depends on what the node owns and on what is owned below it. -/
theorem Valid.walk_congr (h : tree.Valid) (h' : after.Valid)
    (hself : after.ownedBy id = tree.ownedBy id)
    (hbelow : ∀ i ∈ tree.walk id, after.ownedBy i = tree.ownedBy i) :
    after.walk id = tree.walk id := by
  have hwalk := (h'.preorder_walk id).1
  rw [hself] at hwalk
  exact hwalk.unique ((h.preorder_walk id).1.congr hbelow)

theorem Valid.attachable_of_not_mem_walk (h : tree.Valid) (hid : id < tree.size)
    (hfree : tree.parent? id = none) (howner : owner < tree.size) (hne : owner ≠ id)
    (hout : owner ∉ tree.walk id) : tree.Attachable owner id where
  parent_lt := howner
  child_lt := hid
  unowned := hfree
  apart habove := hout ((h.mem_walk_iff id owner).mpr ⟨hne, habove⟩)

/-- What an operation leaves alone below a node that it frees may be attached again as a whole. -/
theorem Valid.released (h : tree.Valid) (h' : after.Valid) (hup : tree.parent? id = some parent)
    (hfreed : ∀ node, tree.get? id = some node →
      after.get? id = some { node with parent := none })
    (hbelow : ∀ i ∈ tree.walk id, after.get? i = tree.get? i) :
    tree.Released parent id after := by
  obtain ⟨node, hnode⟩ := exists_get? (lt_size_of_parent? hup)
  have hafter := hfreed node hnode
  have hlt := lt_size_of_get? hafter
  have hfree : after.parent? id = none := parent?_of_get? hafter
  have hwalk : after.walk id = tree.walk id := by
    refine h.walk_congr h' ?_ fun i hi => ?_
    · rw [ownedBy_of_get? hafter, ownedBy_of_get? hnode]
      rfl
    · rw [ownedBy, ownedBy, hbelow i hi]
  refine ⟨⟨node, hnode, (parent?_of_get? hnode).symm.trans hup, hafter⟩, hwalk, hbelow, ?_, ?_⟩
  · intro owner howner hne hout
    have hfit := h'.attachable_of_not_mem_walk hlt hfree howner hne hout
    exact ⟨(h'.guarded.push_ok_iff owner id).mpr hfit,
      fun name => (h'.guarded.setSlot_ok_iff owner name id).mpr hfit⟩
  · intro content
    exact (h'.guarded.construct_ok_iff content [id]).mpr
      ⟨List.nodup_singleton id, by simpa using hlt, by simpa using hfree⟩

theorem Valid.slotSet (h : tree.Valid) (hs : tree.setSlot parent name child = .ok after) :
    tree.SlotSet parent name child after := by
  have h' := h.setSlot hs
  obtain ⟨hcheck, rfl⟩ := setSlot_eq hs
  have hfit := h.checkAttach_eq_ok_iff.mp hcheck
  have hne := hfit.ne
  obtain ⟨above, hparent⟩ := exists_get? hfit.parent_lt
  obtain ⟨node, hchild⟩ := exists_get? hfit.child_lt
  have hup : ∀ freed, tree.slot? parent name = some freed → tree.parent? freed = some parent :=
    fun _ hfreed => h.parent?_of_slot? hfreed
  have hchild_out : tree.slot? parent name ≠ some child := by
    intro hslot
    have hnone := hfit.unowned
    rw [hup child hslot] at hnone
    cases hnone
  have hparent_out : tree.slot? parent name ≠ some parent := fun hslot =>
    (h.forest.grounded parent).not_above_owner (hup parent hslot) .here
  refine ⟨size_attach .., nextSerial_attach .., hne, ⟨node, hchild, ?_⟩,
    ⟨above, _, hparent, Entries.put_insert name child above.slots, ?_⟩, ?_, ?_⟩
  · exact get?_attach_child hchild hne hchild_out
  · exact get?_attach_parent hparent hne hparent_out
  · intro freed hfreed
    have hfreed_child : freed ≠ child := fun heq => hchild_out (heq ▸ hfreed)
    have hfreed_parent : freed ≠ parent := fun heq => hparent_out (heq ▸ hfreed)
    refine ⟨hfreed_child, hfreed_parent, h.released h' (hup freed hfreed) ?_ ?_⟩
    · intro node hnode
      change (tree.attach parent child _ (tree.slot? parent name)).get? freed = _
      rw [hfreed]
      exact get?_attach_freed hnode hfreed_child hfreed_parent
    · -- Neither the child, which has no owner, nor the parent is below the node that is freed.
      intro i hi
      obtain ⟨hne_freed, habove⟩ := (h.mem_walk_iff freed i).mp hi
      refine get?_attach_of_ne ?_ ?_ ?_
      · rintro rfl
        exact hne_freed (habove.eq_of_top hfit.unowned)
      · rintro rfl
        exact (h.forest.grounded freed).not_above_owner (hup freed hfreed) habove
      · intro hslot
        exact hne_freed (Option.some.inj (hslot.symm.trans hfreed))
  · exact fun i hi hip hout => get?_attach_of_ne hi hip hout

end Tree

end TaggedText
