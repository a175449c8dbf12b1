import TaggedText.Proofs.Interpolation
import TaggedText.Proofs.Resolving

/-!
# A resolved copy is isomorphic to its source

The copies stand in document order, so the copy of a node is found under the position of that node
in the order. Every link of a copy goes to the copy of where the link of its node went, and apart
from the attributes a copy holds what its node holds. Only the first copy loses a link, the one to
the owner of the root.

The copy depends on the nodes that it is made of and on the variables. A copy in document order is
its own resolved copy where there are no variables.
-/
namespace TaggedText

/-- A node in a copy, where `image` is the copy of each node. -/
def Node.image (bindings : Option Bindings) (image : NodeId → NodeId) (parent : Option NodeId)
    (node : Node) : Node :=
  { node with
    content := { node.content with
      attributes := node.content.attributes.map fun entry =>
        (entry.1, Interpolation.apply bindings entry.2) }
    children := node.children.map image
    slots := node.slots.map fun slot => (slot.1, image slot.2)
    parent := parent }

/-- A document that consists of the nodes of `order`, one copy for each and in this order. -/
structure IsCopy (source : Tree) (root : NodeId) (order : List NodeId) (bindings : Option Bindings)
    (copy : Document) : Prop where
  root_eq : copy.root = 0
  nextSerial_eq : copy.tree.nextSerial = source.nextSerial
  size_eq : copy.tree.size = order.length
  get?_eq : ∀ i id node, order[i]? = some id → source.get? id = some node →
    copy.tree.get? i = some (node.image bindings order.idxOf
      (if i = 0 then none else node.parent.map order.idxOf))
  /-- No link of a copy goes astray, since what a copied node owns is copied. -/
  owned_mem : ∀ id ∈ order, ∀ c ∈ source.ownedBy id, c ∈ order
  owner_mem : ∀ id ∈ order, id = root ∨ ∃ owner ∈ order, source.parent? id = some owner

namespace Tree

open Links

variable {source other : Tree} {settings settings' : Settings} {root id : NodeId} {node : Node}
variable {p : Pending} {stack taken : List Pending} {copies : Array Node} {n k fuel fuel' : Nat}
variable {order : List NodeId} {copy : Document}

/-- Only what goes to a copy changes it. -/
theorem linkAll_eq_foldl (image : NodeId → NodeId)
    (himage : ∀ j p, taken[j]? = some p → image p.id = n + j) (k : NodeId) (node : Node) :
    linkAll k n taken node =
      (taken.filter (Pending.goesTo k)).foldl (fun made p => p.link (image p.id) made) node := by
  induction taken generalizing n node with
  | nil => rfl
  | cons p taken ih =>
      have hself : image p.id = n := himage 0 p rfl
      have hlater : ∀ j q, taken[j]? = some q → image q.id = n + 1 + j := by
        intro j q hq
        rw [himage (j + 1) q hq, Nat.add_assoc, Nat.add_comm 1 j]
      rw [linkAll, ih hlater, List.filter_cons]
      split
      · rw [List.foldl_cons, hself]
      · rfl

theorem foldl_link_children (image : NodeId → NodeId) (k : NodeId) (children : List NodeId)
    (made : Node) :
    (children.map fun child => (⟨child, some (.child k)⟩ : Pending)).foldl
        (fun made p => p.link (image p.id) made) made =
      { made with children := made.children ++ children.map image } := by
  induction children generalizing made with
  | nil => rw [List.map_nil, List.map_nil, List.append_nil, List.foldl_nil]
  | cons child children ih =>
      rw [List.map_cons, List.foldl_cons, ih]
      simp [Pending.link, Attachment.change]

theorem foldl_link_slots (image : NodeId → NodeId) (k : NodeId) (slots : Entries NodeId)
    (made : Node) :
    (slots.map fun slot => (⟨slot.2, some (.slot k slot.1)⟩ : Pending)).foldl
        (fun made p => p.link (image p.id) made) made =
      { made with
        slots := made.slots.insertAll (slots.map fun slot => (slot.1, image slot.2)) } := by
  induction slots generalizing made with
  | nil => rfl
  | cons slot slots ih =>
      rw [List.map_cons, List.foldl_cons, ih]
      rfl

/-- The copies of what a node owns come to stand as the node has them. -/
theorem foldl_link_pendingOf (hslots : Entries.Distinct node.slots) (image : NodeId → NodeId)
    (k : NodeId) (place? : Option Attachment) :
    (pendingOf node k).foldl (fun made p => p.link (image p.id) made)
        (copyNode settings node place?) =
      node.image settings.bindings image (place?.map Attachment.owner) := by
  have hdistinct : Entries.Distinct (node.slots.map fun slot => (slot.1, image slot.2)) := by
    rw [Entries.Distinct, Entries.keys, List.map_map]
    exact hslots
  have hinsert : Entries.insertAll [] (node.slots.map fun slot => (slot.1, image slot.2)) =
      node.slots.map fun slot => (slot.1, image slot.2) := Entries.ofList_eq_self hdistinct
  rw [pendingOf, List.foldl_append, foldl_link_slots, foldl_link_children]
  simp only [copyNode, hinsert, List.nil_append]
  rfl

theorem DocumentOrder.getElem?_zero (h : DocumentOrder source root order) :
    order[0]? = some root := by
  obtain ⟨rest, rfl, _⟩ := Preorder.singleton_iff.mp h.preorder
  rfl

theorem DocumentOrder.idxOf_eq (h : DocumentOrder source root order) {i : Nat}
    (hi : order[i]? = some id) : order.idxOf id = i := by
  obtain ⟨hlt, rfl⟩ := List.getElem?_eq_some_iff.mp hi
  exact h.nodup.idxOf_getElem i hlt

/-- Above every node of the order but the root stands another one. -/
theorem DocumentOrder.eq_or_exists_owner (hs : source.Valid)
    (h : DocumentOrder source root order) (hid : id ∈ order) :
    id = root ∨ ∃ owner ∈ order, source.parent? id = some owner := by
  rcases h.preorder.mem_or_exists_owner hid with hid | ⟨owner, howner, hid⟩
  · exact .inl (List.mem_singleton.mp hid)
  · exact .inr ⟨owner, howner, (hs.forest.owner_iff owner id).mpr hid⟩

/-- The nodes below a root are taken in document order. -/
theorem DocumentOrder.exists_taken (h : DocumentOrder source root order) :
    ∃ taken, Taken source 0 [⟨root, none⟩] taken ∧ taken.map Pending.id = order :=
  Tree.exists_taken 0 h.preorder h.lt_size

theorem goBelow_start (root : NodeId) : GoBelow 0 [⟨root, none⟩] := by
  intro p hp place hplace
  rw [List.mem_singleton.mp hp] at hplace
  cases hplace

section
variable {j : Nat} (hs : source.Valid) (ho : DocumentOrder source root order)
  (h : Taken source 0 [⟨root, none⟩] taken) (hids : taken.map Pending.id = order)
include ho hids

theorem Taken.idxOf_eq (hp : taken[j]? = some p) : order.idxOf p.id = j := by
  refine ho.idxOf_eq ?_
  rw [← hids, List.getElem?_map, hp, Option.map_some]

include hs h

/-- A copy names the copy of the owner of its node. -/
theorem Taken.owner_place_eq (hp : taken[j]? = some p) (hnode : source.get? p.id = some node) :
    p.place.map Attachment.owner = if j = 0 then none else node.parent.map order.idxOf := by
  cases hplace : p.place with
  | none =>
      have hroot : p = ⟨root, none⟩ := List.mem_singleton.mp
        (h.mem_stack (List.mem_of_getElem? hp) hplace)
      have hj : order.idxOf root = j := by
        rw [← Taken.idxOf_eq ho hids hp, hroot]
      rw [if_pos (hj.symm.trans (ho.idxOf_eq ho.getElem?_zero)), Option.map_none]
  | some place =>
      have hlt : place.owner < j := by
        have hlt := h.owner_lt (goBelow_start root) hp place hplace
        rwa [Nat.zero_add] at hlt
      have hlength : j < taken.length := (List.getElem?_eq_some_iff.mp hp).choose
      obtain ⟨q, hq⟩ : ∃ q, taken[place.owner]? = some q :=
        ⟨_, List.getElem?_eq_getElem (Nat.lt_trans hlt hlength)⟩
      obtain ⟨owner, howner⟩ := h.exists_get? (List.mem_of_getElem? hq)
      -- What goes to the copy of the owner is what the owner owns.
      have hgoes : p ∈ taken.filter (Pending.goesTo (0 + place.owner)) := by
        refine List.mem_filter.mpr ⟨List.mem_of_getElem? hp, ?_⟩
        exact goesTo_iff.mpr ⟨place, hplace, (Nat.zero_add _).symm⟩
      rw [h.filter_goesTo (goBelow_start root) hq howner] at hgoes
      have howned : p.id ∈ source.ownedBy q.id := by
        rw [ownedBy_of_get? howner, ← map_id_pendingOf]
        exact List.mem_map_of_mem hgoes
      have hparent : node.parent = some q.id := by
        rw [← parent?_of_get? hnode]
        exact (hs.forest.owner_iff q.id p.id).mpr howned
      have hpos : j ≠ 0 := Nat.ne_of_gt (Nat.lt_of_le_of_lt (Nat.zero_le _) hlt)
      rw [if_neg hpos, hparent, Option.map_some, Option.map_some, Taken.idxOf_eq ho hids hq]

theorem Taken.get?_copies (settings : Settings) (hp : taken[j]? = some p)
    (hnode : source.get? p.id = some node) :
    (ofCopies source (source.copies settings root)).get? j =
      some (node.image settings.bindings order.idxOf
        (if j = 0 then none else node.parent.map order.idxOf)) := by
  have hfuel : taken.length ≤ source.size := by
    have hle := ho.length_le
    rwa [← hids, List.length_map] at hle
  have hstart : Taken source (#[] : Array Node).size [⟨root, none⟩] taken := h
  have hmade : (ofCopies source (source.copies settings root)).get? (0 + j) =
      some (linkAll (0 + j) 0 taken (copyNode settings node p.place)) :=
    hstart.get?_copyPending (goBelow_start root) hfuel hp hnode
  have himage : ∀ i q, taken[i]? = some q → order.idxOf q.id = 0 + i := by
    intro i q hq
    rw [Nat.zero_add, Taken.idxOf_eq ho hids hq]
  have hlinked : linkAll (0 + j) 0 taken (copyNode settings node p.place) =
      node.image settings.bindings order.idxOf (p.place.map Attachment.owner) := by
    rw [linkAll_eq_foldl order.idxOf himage, h.filter_goesTo (goBelow_start root) hp hnode,
      foldl_link_pendingOf (hs.slots p.id node hnode) order.idxOf]
  rw [← Taken.owner_place_eq hs ho h hids hp hnode, ← hlinked, ← hmade, Nat.zero_add]

end

/-- Resolving gives a copy of the nodes in document order. -/
theorem Valid.isCopy (hs : source.Valid) (ho : DocumentOrder source root order)
    (h : source.resolve root settings = .ok copy) :
    IsCopy source root order settings.bindings copy := by
  obtain ⟨taken, htaken, hids⟩ := ho.exists_taken
  unfold Tree.resolve at h
  split at h
  · cases h
    refine ⟨rfl, rfl, ?_, fun i id node hi hnode => ?_, fun id hid c hc => ?_,
      fun id hid => ho.eq_or_exists_owner hs hid⟩
    · have hlength : taken.length = order.length := by
        rw [← hids, List.length_map]
      have hstart : Taken source (#[] : Array Node).size [⟨root, none⟩] taken := htaken
      have hsize : (source.copies settings root).size = 0 + taken.length :=
        hstart.size_copyPending (hlength ▸ ho.length_le)
      rwa [hlength, Nat.zero_add] at hsize
    · rw [← hids, List.getElem?_map] at hi
      obtain ⟨p, hp, rfl⟩ := Option.map_eq_some_iff.mp hi
      exact htaken.get?_copies hs ho hids settings hp hnode
    · exact ho.preorder.mem_of_mem_down hid hc
  · cases h

/-- Two trees that agree on the nodes taken, up to who owns them, give the same copies under the
same variables. -/
theorem Taken.copyPending_eq (h : Taken source n stack taken)
    (hagree : ∀ p ∈ taken, ∀ node, source.get? p.id = some node →
      ∃ parent, other.get? p.id = some { node with parent := parent })
    (hbindings : settings'.bindings = settings.bindings) (hfuel : taken.length ≤ fuel)
    (hfuel' : taken.length ≤ fuel') (copies : Array Node) (hn : copies.size = n) :
    other.copyPending settings' fuel' stack copies =
      source.copyPending settings fuel stack copies := by
  induction h generalizing fuel fuel' copies with
  | nil => cases fuel <;> cases fuel' <;> rfl
  | @cons n p stack taken node hnode _ ih =>
      obtain ⟨fuel, rfl⟩ := Nat.exists_eq_add_of_le' (Nat.le_trans (Nat.succ_pos _) hfuel)
      obtain ⟨fuel', rfl⟩ := Nat.exists_eq_add_of_le' (Nat.le_trans (Nat.succ_pos _) hfuel')
      obtain ⟨parent, hother⟩ := hagree p List.mem_cons_self node hnode
      have hcopy : ∀ place?, copyOne settings' { node with parent := parent } place? copies =
          copyOne settings node place? copies := by
        intro place?
        cases place? <;> simp only [copyOne, copyNode, resolveContent, hbindings]
      have hsize : (copyOne settings node p.place copies).size = n + 1 := by
        rw [size_copyOne, hn]
      rw [copyPending_cons hother, copyPending_cons hnode, hcopy]
      subst hn
      exact ih (fun q hq => hagree q (List.mem_cons_of_mem _ hq)) (Nat.le_of_succ_le_succ hfuel)
        (Nat.le_of_succ_le_succ hfuel') _ hsize

/-- A copy depends on the copied nodes, up to who owns the root, and on the variables. -/
theorem DocumentOrder.resolve_eq (ho : DocumentOrder source root order)
    (h : source.resolve root settings = .ok copy)
    (hagree : ∀ id ∈ order, ∀ node, source.get? id = some node →
      ∃ parent, other.get? id = some { node with parent := parent })
    (hbindings : settings'.bindings = settings.bindings) :
    ∃ copy', other.resolve root settings' = .ok copy' ∧ copy'.root = copy.root ∧
      copy'.tree.nodes = copy.tree.nodes := by
  obtain ⟨taken, htaken, hids⟩ := ho.exists_taken
  have hlength : taken.length = order.length := by
    rw [← hids, List.length_map]
  have hlt : ∀ id ∈ order, id < other.size := by
    intro id hid
    obtain ⟨node, hnode⟩ := exists_get? (ho.lt_size id hid)
    obtain ⟨parent, hother⟩ := hagree id hid node hnode
    exact lt_size_of_get? hother
  have hfuel' : order.length ≤ other.size := length_le_size ho.nodup hlt
  have hroot : root < other.size := hlt root (List.mem_of_getElem? ho.getElem?_zero)
  have hcopies : other.copies settings' root = source.copies settings root := by
    refine htaken.copyPending_eq (fun p hp => ?_) hbindings (hlength ▸ ho.length_le)
      (hlength ▸ hfuel') #[] rfl
    exact hagree p.id (hids ▸ List.mem_map_of_mem hp)
  unfold Tree.resolve at h
  split at h
  · cases h
    rw [Tree.resolve, dif_pos hroot]
    exact ⟨_, rfl, rfl, hcopies⟩
  · cases h

theorem image_eq_self {bindings : Option Bindings} {image : NodeId → NodeId}
    (hbindings : Interpolation.effective? bindings = none)
    (himage : ∀ c ∈ node.owned, image c = c) :
    node.image bindings image node.parent = node := by
  have hattributes : node.content.attributes.map (fun entry =>
      (entry.1, Interpolation.apply bindings entry.2)) = node.content.attributes := by
    simp only [Interpolation.apply_eq_self hbindings, List.map_id']
  have hchildren : node.children.map image = node.children := by
    refine (List.map_congr_left fun c hc => ?_).trans (List.map_id' _)
    exact himage c (List.mem_append_right _ hc)
  have hslots : node.slots.map (fun slot => (slot.1, image slot.2)) = node.slots := by
    refine (List.map_congr_left fun slot hslot => ?_).trans (List.map_id' _)
    rw [himage slot.2 (List.mem_append_left _ (List.mem_map_of_mem hslot))]
  rw [Node.image, hattributes, hchildren, hslots]

/-- A document whose nodes stand in document order is its own copy where nothing is replaced. -/
theorem Valid.resolve_eq_self {document : Document} (hs : document.tree.Valid)
    (hroot : document.root = 0)
    (ho : DocumentOrder document.tree 0 (List.range document.tree.size))
    (hparent : document.tree.parent? 0 = none)
    (hbindings : Interpolation.effective? settings.bindings = none) :
    document.tree.resolve document.root settings = .ok document := by
  obtain ⟨tree, root, hlt⟩ := document
  obtain rfl : root = 0 := hroot
  have hresolve : tree.resolve 0 settings =
      .ok ⟨{ nodes := tree.copies settings 0, nextSerial := tree.nextSerial }, 0,
        copies_nonempty hlt⟩ := by
    rw [Tree.resolve, dif_pos hlt]
  have hcopy := hs.isCopy ho hresolve
  have hposition : ∀ {i : Nat}, i < tree.size → (List.range tree.size)[i]? = some i := by
    intro i hi
    rw [List.getElem?_range hi]
  have hindex : ∀ {i : Nat}, i < tree.size → (List.range tree.size).idxOf i = i :=
    fun hi => ho.idxOf_eq (hposition hi)
  have htree : ({ nodes := tree.copies settings 0, nextSerial := tree.nextSerial } : Tree) =
      tree := by
    refine eq_of_get? (fun i => ?_) rfl
    by_cases hi : i < tree.size
    · obtain ⟨node, hnode⟩ := exists_get? hi
      have howned : ∀ c ∈ node.owned, (List.range tree.size).idxOf c = c := fun c hc =>
        hindex (hs.owned_lt_size (ownedBy_of_get? hnode ▸ hc))
      have hparent' : (if i = 0 then none else node.parent.map (List.range tree.size).idxOf) =
          node.parent := by
        have hown : tree.parent? i = node.parent := parent?_of_get? hnode
        split
        next hzero => rw [← hown, hzero, hparent]
        next =>
          cases howner : node.parent with
          | none => rfl
          | some owner => rw [Option.map_some, hindex (hs.owner_lt_size (hown.trans howner))]
      rw [hcopy.get?_eq i i node (hposition hi) hnode, hparent', image_eq_self hbindings howned,
        hnode]
    · have hsize := hcopy.size_eq
      rw [List.length_range] at hsize
      rw [get?_eq_none_iff.mpr (Nat.not_lt.mp hi),
        get?_eq_none_iff.mpr (hsize.trans_le (Nat.not_lt.mp hi))]
  simp only [hresolve, htree]

/-- The nodes of a copy stand in document order. -/
theorem DocumentOrder.of_isCopy {bindings : Option Bindings}
    (ho : DocumentOrder source root order) (h : IsCopy source root order bindings copy) :
    DocumentOrder copy.tree 0 (List.range copy.tree.size) := by
  have hpositions : order.map order.idxOf = List.range order.length := by
    refine List.ext_getElem? fun i => ?_
    by_cases hi : i < order.length
    · rw [List.getElem?_map, List.getElem?_range hi, List.getElem?_eq_getElem hi, Option.map_some,
        ho.idxOf_eq (List.getElem?_eq_getElem hi)]
    · rw [List.getElem?_eq_none (by simpa using hi), List.getElem?_eq_none (by simpa using hi)]
  have howned : ∀ id ∈ order,
      copy.tree.ownedBy (order.idxOf id) = (source.ownedBy id).map order.idxOf := by
    intro id hid
    obtain ⟨i, hi⟩ := List.mem_iff_getElem?.mp hid
    obtain ⟨node, hnode⟩ := exists_get? (ho.lt_size id hid)
    rw [ho.idxOf_eq hi, ownedBy_of_get? (h.get?_eq i id node hi hnode), ownedBy_of_get? hnode]
    simp [Node.image, Node.owned, Function.comp_def]
  have hpreorder := ho.preorder.map howned
  rw [hpositions, List.map_singleton, ho.idxOf_eq ho.getElem?_zero, ← h.size_eq] at hpreorder
  exact ⟨hpreorder, List.nodup_range, fun id hid => List.mem_range.mp hid⟩

/-- A copy is its own copy where nothing is replaced. -/
theorem Valid.resolve_copy (hs : source.Valid) (ho : DocumentOrder source root order)
    (h : source.resolve root settings = .ok copy)
    (hbindings : Interpolation.effective? settings'.bindings = none) :
    copy.tree.resolve copy.root settings' = .ok copy := by
  have hcopy := hs.isCopy ho h
  obtain ⟨node, hnode⟩ := exists_get? (ho.lt_size root (List.mem_of_getElem? ho.getElem?_zero))
  refine (hs.resolve h).resolve_eq_self hcopy.root_eq (ho.of_isCopy hcopy) ?_ hbindings
  rw [parent?_of_get? (hcopy.get?_eq 0 root node ho.getElem?_zero hnode)]
  rfl

end Tree

end TaggedText
