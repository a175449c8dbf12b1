import TaggedText.Proofs.Ownership.Operations
import TaggedText.Tree.Resolve

/-!
# Ownership in a copy

A resolved tree is valid if the tree it comes from is. Two things are followed while nodes are
copied. On the side of the source, the nodes that were copied and those on the stack are distinct
and all stand below the root of the copy: a node is put onto the stack by its owner alone, and no
owner is copied twice. On the side of the copy, the links form a forest at every moment, because
each copy comes to be owned at once by a node that stands before it.
-/
namespace TaggedText.Tree

open Links

variable {source : Tree} {settings : Settings} {root copy : NodeId} {node : Node}

/-- The nodes copied so far and those that are still to be copied. -/
structure Visits (source : Tree) (root : NodeId) (seen ahead : List NodeId) : Prop where
  nodup : (seen ++ ahead).Nodup
  below : ∀ id ∈ seen ++ ahead, Above source.parent? root id
  owner_seen : ∀ id ∈ seen ++ ahead, id = root ∨ ∃ owner ∈ seen, source.parent? id = some owner

theorem Visits.start (source : Tree) (root : NodeId) : Visits source root [] [root] where
  nodup := List.nodup_singleton root
  below := fun _ hid => List.mem_singleton.mp hid ▸ .here
  owner_seen := fun _ hid => .inl (List.mem_singleton.mp hid)

/-- What a node owns was never on the stack before the node is copied. -/
theorem Visits.owned_apart {seen ahead : List NodeId} {id c : NodeId} (hs : source.Valid)
    (h : Visits source root seen (id :: ahead)) (hc : c ∈ source.ownedBy id) :
    c ∉ seen ++ id :: ahead := by
  intro hin
  have hup : source.parent? c = some id := (hs.forest.owner_iff id c).mpr hc
  rcases h.owner_seen c hin with rfl | ⟨owner, howner, hup'⟩
  · exact (hs.forest.grounded c).not_above_owner hup (h.below id (by simp))
  · obtain rfl : owner = id := Option.some.inj (hup'.symm.trans hup)
    exact (List.nodup_append.mp h.nodup).2.2 owner howner owner List.mem_cons_self rfl

theorem Visits.step {seen ahead : List NodeId} {id : NodeId} (hs : source.Valid)
    (h : Visits source root seen (id :: ahead)) :
    Visits source root (seen ++ [id]) (source.ownedBy id ++ ahead) := by
  have hsplit : ∀ c, c ∈ (seen ++ [id]) ++ (source.ownedBy id ++ ahead) ↔
      c ∈ source.ownedBy id ∨ c ∈ seen ++ id :: ahead := by
    intro c
    simp only [List.mem_append, List.mem_cons, List.not_mem_nil, or_false]
    tauto
  refine ⟨?_, fun c hc => ?_, fun c hc => ?_⟩
  · have hperm : ((seen ++ [id]) ++ (source.ownedBy id ++ ahead)).Perm
        (source.ownedBy id ++ (seen ++ id :: ahead)) := by
      have hswap := (@List.perm_append_comm _ (seen ++ [id]) (source.ownedBy id)).append_right ahead
      simpa only [List.append_assoc, List.cons_append, List.nil_append] using hswap
    refine hperm.nodup_iff.mpr (List.nodup_append.mpr ⟨hs.forest.nodup id, h.nodup, ?_⟩)
    intro c hc d hd hcd
    exact h.owned_apart hs hc (hcd ▸ hd)
  · rcases (hsplit c).mp hc with hc | hc
    · exact .further ((hs.forest.owner_iff id c).mpr hc) (h.below id (by simp))
    · exact h.below c hc
  · rcases (hsplit c).mp hc with hc | hc
    · exact .inr ⟨id, by simp, (hs.forest.owner_iff id c).mpr hc⟩
    · rcases h.owner_seen c hc with hroot | ⟨owner, howner, hup⟩
      · exact .inl hroot
      · exact .inr ⟨owner, List.mem_append_left _ howner, hup⟩

/-- The copies made so far as a tree of their own. -/
def ofCopies (source : Tree) (copies : Array Node) : Tree :=
  ⟨copies, source.nextSerial⟩

/-- The copies after one more, which is linked into the place that it goes to. -/
def copyOne (settings : Settings) (node : Node) (place : Option Attachment)
    (copies : Array Node) : Array Node :=
  match place with
  | some place => place.link copies.size (copies.push (copyNode settings node (some place)))
  | none => copies.push (copyNode settings node none)

theorem copyPending_cons {fuel : Nat} {p : Pending} {stack : List Pending} {copies : Array Node}
    (h : source.get? p.id = some node) :
    copyPending source settings (fuel + 1) (p :: stack) copies =
      copyPending source settings fuel (pendingOf node copies.size ++ stack)
        (copyOne settings node p.place copies) := by
  obtain ⟨id, place⟩ := p
  cases place <;> simp only [copyPending, h, copyOne]

/-- How the owner of a copy changes. -/
def Attachment.change (copy : NodeId) : Attachment → Node → Node
  | .child _, node => { node with children := node.children ++ [copy] }
  | .slot _ name, node => { node with slots := node.slots.insert name copy }

theorem ofCopies_copyOne_none (copies : Array Node) :
    ofCopies source (copyOne settings node none copies) =
      (ofCopies source copies).grow (copyNode settings node none) source.nextSerial := rfl

theorem ofCopies_copyOne_some (place : Attachment) (copies : Array Node) :
    ofCopies source (copyOne settings node (some place) copies) =
      ((ofCopies source copies).grow (copyNode settings node (some place))
        source.nextSerial).modify place.owner (place.change copies.size) := by
  cases place <;> rfl

/-- The slot that a place is, with its owner. -/
def Attachment.slot? : Attachment → Option (NodeId × String)
  | .child _ => none
  | .slot owner name => some (owner, name)

/-- Whether a copy can go to a place: the owner is there, and the slot is not taken. -/
def Attachment.Open (copies : Tree) (place : Attachment) : Prop :=
  ∃ node, copies.get? place.owner = some node ∧
    ∀ slot ∈ place.slot?, node.slots.get? slot.2 = none

/-- An owner gains the copy and nothing else. -/
theorem Attachment.perm_owned_change {place : Attachment}
    (h : ∀ slot ∈ place.slot?, node.slots.get? slot.2 = none) :
    (place.change copy node).owned.Perm (copy :: node.owned) := by
  cases place with
  | child owner =>
      simp only [Attachment.change, Node.owned, ← List.append_assoc]
      exact List.perm_append_singleton copy _
  | slot owner name =>
      simp only [Attachment.change, Node.owned,
        Entries.values_insert_of_get?_eq_none (h (owner, name) rfl), List.append_assoc]
      exact List.perm_middle

theorem Attachment.distinct_slots_change (place : Attachment)
    (h : Entries.Distinct node.slots) : Entries.Distinct (place.change copy node).slots := by
  cases place with
  | child _ => exact h
  | slot _ _ => exact Entries.distinct_insert h

/-- A slot is free after another one was filled. -/
theorem Attachment.get?_slots_change {place : Attachment} {name : String}
    (h : node.slots.get? name = none) (hne : ∀ slot ∈ place.slot?, slot.2 ≠ name) :
    (place.change copy node).slots.get? name = none := by
  cases place with
  | child _ => exact h
  | slot owner filled =>
      have hfilled : filled ≠ name := hne (owner, filled) rfl
      simp only [Attachment.change, Entries.get?_insert, hfilled, if_false, h]

/-- The links and slots of the copies, and the places that are still to be filled. -/
structure Copied (copies : Tree) (places : List Attachment) : Prop where
  forest : Forest copies.parent? copies.ownedBy
  slots : ∀ id node, copies.get? id = some node → Entries.Distinct node.slots
  isOpen : ∀ place ∈ places, place.Open copies
  apart : (places.filterMap Attachment.slot?).Nodup

section
variable {copies : Array Node} {place : Attachment} {place? : Option Attachment}

theorem lt_of_open (h : place.Open (ofCopies source copies)) : place.owner < copies.size := by
  obtain ⟨owner, howner, _⟩ := h
  exact lt_size_of_get? howner

/-- The new copy is at the end, with nothing linked into it yet. -/
theorem get?_copyOne_self (h : ∀ p ∈ place?, p.owner < copies.size) :
    (ofCopies source (copyOne settings node place? copies)).get? copies.size =
      some (copyNode settings node place?) := by
  cases place? with
  | none => exact get?_grow_self (ofCopies source copies) _ _
  | some place =>
      have hne : place.owner ≠ copies.size := Nat.ne_of_lt (h place rfl)
      rw [ofCopies_copyOne_some, get?_modify, if_neg hne]
      exact get?_grow_self (ofCopies source copies) _ _

/-- Among the older copies only the owner changes. -/
theorem get?_copyOne_of_lt {i : NodeId} (hi : i < copies.size) :
    (ofCopies source (copyOne settings node place? copies)).get? i =
      ((ofCopies source copies).get? i).map fun old =>
        match place? with
        | some place => if place.owner = i then place.change copies.size old else old
        | none => old := by
  have hi' : i < (ofCopies source copies).size := hi
  cases place? with
  | none =>
      rw [ofCopies_copyOne_none, get?_grow_of_lt hi']
      simp
  | some place =>
      rw [ofCopies_copyOne_some, get?_modify, get?_grow_of_lt hi']
      by_cases howner : place.owner = i <;> simp [howner]

theorem serials_copyOne :
    (ofCopies source (copyOne settings node place? copies)).serials =
      (ofCopies source copies).serials ++ [node.serial] := by
  cases place? with
  | none => exact serials_grow (ofCopies source copies) (copyNode settings node none) _
  | some place =>
      have hchange : ∀ n, (place.change copies.size n).serial = n.serial := by
        intro n
        cases place <;> rfl
      rw [ofCopies_copyOne_some, serials_modify hchange]
      exact serials_grow (ofCopies source copies) (copyNode settings node (some place)) _

theorem forest_copyOne
    (h : Forest (ofCopies source copies).parent? (ofCopies source copies).ownedBy)
    (hopen : ∀ p ∈ place?, Attachment.Open (ofCopies source copies) p) :
    Forest (ofCopies source (copyOne settings node place? copies)).parent?
      (ofCopies source (copyOne settings node place? copies)).ownedBy := by
  have hup : (ofCopies source copies).parent? copies.size = none :=
    parent?_eq_none_of_size_le (Nat.le_refl _)
  have hdown : (ofCopies source copies).ownedBy copies.size = [] :=
    ownedBy_eq_nil_of_size_le (Nat.le_refl _)
  -- Before it is linked, the copy owns nothing, just as its index did before.
  have hgrown : ∀ p, ((ofCopies source copies).grow (copyNode settings node p)
      source.nextSerial).ownedBy = (ofCopies source copies).ownedBy := by
    intro p
    rw [ownedBy_grow]
    exact Function.update_eq_self_iff.mpr hdown.symm
  cases place? with
  | none =>
      rw [ofCopies_copyOne_none, parent?_grow, hgrown]
      have hself : Function.update (ofCopies source copies).parent? (ofCopies source copies).size
          none = (ofCopies source copies).parent? := Function.update_eq_self_iff.mpr hup.symm
      exact hself.symm ▸ h
  | some place =>
      obtain ⟨old, hold, hfree⟩ := hopen place rfl
      have hlt : place.owner < (ofCopies source copies).size := lt_size_of_get? hold
      have hchange : ∀ n, (place.change copies.size n).parent = n.parent := by
        intro n
        cases place <;> rfl
      have hold' : ((ofCopies source copies).grow (copyNode settings node (some place))
          source.nextSerial).get? place.owner = some old := (get?_grow_of_lt hlt _).trans hold
      rw [ofCopies_copyOne_some, parent?_modify hchange, parent?_grow, ownedBy_modify hold', hgrown]
      have hupdate : Function.update (ofCopies source copies).parent? (ofCopies source copies).size
          (copyNode settings node (some place)).parent =
            adopt (ofCopies source copies).parent? place.owner [copies.size] :=
        (adopt_singleton _ place.owner copies.size).symm
      rw [hupdate]
      refine h.adopt (List.nodup_singleton copies.size) ?_ ?_ ?_
      · intro id hid
        exact List.mem_singleton.mp hid ▸ hup
      · -- The new index stands above no older copy, since it owns nothing.
        intro a ha habove
        obtain rfl := List.mem_singleton.mp ha
        rcases habove.eq_or_owner with heq | ⟨c, hc, _⟩
        · exact Nat.ne_of_lt hlt heq
        · rw [h.owner_iff, hdown] at hc
          exact List.not_mem_nil hc
      · rw [ownedBy_of_get? hold]
        exact Attachment.perm_owned_change hfree

/-- A place is open after a copy has gone to another place. -/
theorem open_copyOne {p : Attachment} (hp : p.Open (ofCopies source copies))
    (hapart : ∀ q ∈ place?, ∀ slot ∈ p.slot?, slot ∉ q.slot?) :
    p.Open (ofCopies source (copyOne settings node place? copies)) := by
  obtain ⟨old, hold, hfree⟩ := hp
  have hlt : p.owner < copies.size := lt_size_of_get? hold
  refine ⟨_, (get?_copyOne_of_lt hlt).trans (by rw [hold, Option.map_some]), ?_⟩
  intro slot hslot
  cases place? with
  | none => exact hfree slot hslot
  | some q =>
      by_cases howner : q.owner = p.owner
      · simp only [howner, if_true]
        refine Attachment.get?_slots_change (hfree slot hslot) fun other hother heq => ?_
        -- Two slots of one owner under one name are one slot.
        have hsame : other = slot := by
          cases p with
          | child _ => cases hslot
          | slot owner name =>
              cases q with
              | child _ => cases hother
              | slot owner' name' =>
                  obtain rfl := Option.some.inj hslot
                  obtain rfl := Option.some.inj hother
                  exact Prod.ext howner heq
        exact hapart q rfl slot hslot (hsame ▸ hother)
      · simp only [howner, if_false]
        exact hfree slot hslot

/-- The places that a copied node leaves behind for what it owns. -/
theorem places_pendingOf (node : Node) (copy : NodeId) :
    (pendingOf node copy).filterMap Pending.place =
      node.slots.map (fun slot => Attachment.slot copy slot.1) ++
        node.children.map fun _ => Attachment.child copy := by
  have hslots : (Pending.place ∘ fun slot : String × NodeId =>
      (⟨slot.2, some (.slot copy slot.1)⟩ : Pending)) =
        fun slot => some (Attachment.slot copy slot.1) := rfl
  have hchildren : (Pending.place ∘ fun child : NodeId =>
      (⟨child, some (.child copy)⟩ : Pending)) = fun _ => some (Attachment.child copy) := rfl
  rw [pendingOf, List.filterMap_append, List.filterMap_map, List.filterMap_map, hslots, hchildren,
    List.filterMap_eq_map', List.filterMap_eq_map']

theorem slots_pendingOf (node : Node) (copy : NodeId) :
    ((pendingOf node copy).filterMap Pending.place).filterMap Attachment.slot? =
      node.slots.keys.map fun name => (copy, name) := by
  simp [places_pendingOf, Attachment.slot?, Entries.keys, List.filterMap_map, Function.comp_def]

theorem Copied.step {places : List Attachment}
    (h : Copied (ofCopies source copies) (place?.toList ++ places))
    (hslots : Entries.Distinct node.slots) :
    Copied (ofCopies source (copyOne settings node place? copies))
      ((pendingOf node copies.size).filterMap Pending.place ++ places) := by
  have hplace : ∀ p ∈ place?, Attachment.Open (ofCopies source copies) p := fun p hp =>
    h.isOpen p (List.mem_append_left _ (Option.mem_toList.mpr hp))
  have hapart := h.apart
  rw [List.filterMap_append] at hapart
  obtain ⟨-, hrest, hdisjoint⟩ := List.nodup_append.mp hapart
  have hold : ∀ p ∈ places, p.owner < copies.size := fun p hp =>
    lt_of_open (h.isOpen p (List.mem_append_right _ hp))
  refine ⟨forest_copyOne h.forest hplace, ?_, ?_, ?_⟩
  · cases place? with
    | none => exact distinct_slots_grow h.slots List.nodup_nil
    | some place =>
        rw [ofCopies_copyOne_some]
        exact distinct_slots_modify (distinct_slots_grow h.slots List.nodup_nil)
          fun _ hn => place.distinct_slots_change hn
  · intro p hp
    rcases List.mem_append.mp hp with hp | hp
    · have howner : p.owner = copies.size := by
        rw [places_pendingOf, List.mem_append, List.mem_map, List.mem_map] at hp
        rcases hp with ⟨slot, _, rfl⟩ | ⟨child, _, rfl⟩ <;> rfl
      refine ⟨_, howner ▸ get?_copyOne_self fun p hp => ?_, fun _ _ => rfl⟩
      exact lt_of_open (hplace p hp)
    · refine open_copyOne (h.isOpen p (List.mem_append_right _ hp)) fun q hq slot hslot hslot' => ?_
      refine hdisjoint slot ?_ slot ?_ rfl
      · exact List.mem_filterMap.mpr ⟨q, Option.mem_toList.mpr hq, hslot'⟩
      · exact List.mem_filterMap.mpr ⟨p, hp, hslot⟩
  · rw [List.filterMap_append, slots_pendingOf]
    refine List.nodup_append.mpr ⟨hslots.map fun a b hab => (Prod.mk.inj hab).2, hrest, ?_⟩
    -- The new slots belong to the new copy, the others to older ones.
    intro a ha b hb hab
    obtain ⟨name, _, rfl⟩ := List.mem_map.mp ha
    obtain ⟨p, hp, hslot⟩ := List.mem_filterMap.mp hb
    cases p with
    | child _ => cases hslot
    | slot owner other =>
        have howner := hold _ hp
        rw [← hab] at hslot
        obtain ⟨rfl, -⟩ := Prod.mk.inj (Option.some.inj hslot)
        exact Nat.lt_irrefl _ howner

end

/-- The number for diagnosis of a node. -/
def serial? (tree : Tree) (id : NodeId) : Option Nat :=
  (tree.get? id).map Node.serial

theorem getElem?_serials (tree : Tree) (id : NodeId) : tree.serials[id]? = tree.serial? id := by
  rw [serials, List.getElem?_map, Array.getElem?_toList]
  rfl

theorem mem_serials_of_serial? {tree : Tree} {id n : Nat} (h : tree.serial? id = some n) :
    n ∈ tree.serials :=
  List.mem_of_getElem? ((getElem?_serials tree id).trans h)

theorem Valid.eq_of_serial? {tree : Tree} (h : tree.Valid) {a b n : Nat}
    (ha : tree.serial? a = some n) (hb : tree.serial? b = some n) : a = b := by
  rw [← getElem?_serials] at ha hb
  have hlt : a < tree.serials.length := (List.getElem?_eq_some_iff.mp ha).choose
  exact (List.getElem?_inj hlt h.serials_nodup).mp (ha.trans hb.symm)

/-- What holds between two copied nodes. -/
structure Copying (source : Tree) (root : NodeId) (seen : List NodeId) (stack : List Pending)
    (copies : Array Node) : Prop where
  visits : Visits source root seen (stack.map Pending.id)
  copied : Copied (ofCopies source copies) (stack.filterMap Pending.place)
  serials : (ofCopies source copies).serials.map some = seen.map source.serial?

theorem Copying.start (source : Tree) (root : NodeId) :
    Copying source root [] [⟨root, none⟩] #[] where
  visits := Visits.start source root
  copied := {
    forest := valid_empty.forest
    slots := valid_empty.slots
    isOpen := fun _ h => absurd h List.not_mem_nil
    apart := List.nodup_nil }
  serials := rfl

theorem Copying.step {seen : List NodeId} {p : Pending} {stack : List Pending}
    {copies : Array Node} (hs : source.Valid) (hn : source.get? p.id = some node)
    (h : Copying source root seen (p :: stack) copies) :
    Copying source root (seen ++ [p.id]) (pendingOf node copies.size ++ stack)
      (copyOne settings node p.place copies) := by
  refine ⟨?_, ?_, ?_⟩
  · have hids : (pendingOf node copies.size).map Pending.id = source.ownedBy p.id := by
      simp [pendingOf, ownedBy_of_get? hn, Node.owned, Function.comp_def]
    rw [List.map_append, hids]
    exact h.visits.step hs
  · rw [List.filterMap_append]
    refine Copied.step ?_ (hs.slots p.id node hn)
    have hcopied := h.copied
    rw [List.filterMap_cons] at hcopied
    cases hp : p.place with
    | none => simpa [hp] using hcopied
    | some place => simpa [hp] using hcopied
  · have hserial : source.serial? p.id = some node.serial := by rw [serial?, hn, Option.map_some]
    rw [serials_copyOne, List.map_append, h.serials, List.map_append]
    simp [hserial]

/-- What holds between two copied nodes holds at the end. -/
theorem Copying.copyPending {fuel : Nat} {seen : List NodeId} {stack : List Pending}
    {copies : Array Node} (hs : source.Valid) (hroot : root < source.size)
    (h : Copying source root seen stack copies) :
    ∃ seen' stack', Copying source root seen' stack'
      (copyPending source settings fuel stack copies) := by
  induction fuel generalizing seen stack copies with
  | zero => exact ⟨seen, stack, h⟩
  | succ fuel ih =>
      cases stack with
      | nil => exact ⟨seen, [], h⟩
      | cons p stack =>
          cases hn : source.get? p.id with
          | none =>
              have hin : p.id < source.size := by
                rcases h.visits.owner_seen p.id (by simp) with hid | ⟨_, _, hup⟩
                · exact hid ▸ hroot
                · exact lt_size_of_parent? hup
              exact absurd hin (Nat.not_lt.mpr (get?_eq_none_iff.mp hn))
          | some node =>
              rw [copyPending_cons hn]
              exact ih (h.step hs hn)

/-- The copies made so far are a valid tree. -/
theorem Copying.valid {seen : List NodeId} {stack : List Pending} {copies : Array Node}
    (hs : source.Valid) (h : Copying source root seen stack copies) :
    (ofCopies source copies).Valid where
  forest := h.copied.forest
  slots := h.copied.slots
  serials_nodup := by
    refine List.Nodup.of_map some ?_
    rw [h.serials]
    have hseen := (List.nodup_append.mp h.visits.nodup).1
    refine hseen.map_on fun a ha b _ hab => ?_
    have hmem : source.serial? a ∈ (ofCopies source copies).serials.map some :=
      h.serials ▸ List.mem_map_of_mem ha
    obtain ⟨n, _, hn⟩ := List.mem_map.mp hmem
    exact hs.eq_of_serial? hn.symm (hab ▸ hn.symm)
  serials_lt := by
    intro n hn
    have hmem : some n ∈ seen.map source.serial? := h.serials ▸ List.mem_map_of_mem hn
    obtain ⟨id, _, hid⟩ := List.mem_map.mp hmem
    exact hs.serials_lt n (mem_serials_of_serial? hid)

theorem Valid.resolve {document : Document} (hs : source.Valid)
    (h : source.resolve root settings = .ok document) : document.tree.Valid := by
  unfold Tree.resolve at h
  split at h
  next hroot =>
    cases h
    obtain ⟨seen, stack, hend⟩ :
        ∃ seen stack, Copying source root seen stack (copies source settings root) :=
      (Copying.start source root).copyPending hs hroot
    exact hend.valid hs
  · cases h

end TaggedText.Tree
