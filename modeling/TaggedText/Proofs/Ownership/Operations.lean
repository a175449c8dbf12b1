import TaggedText.Proofs.Entries
import TaggedText.Proofs.Ownership.Guards

/-!
# Operations on a tree and its links

Each operation is described once by what it does to the links: making a node and appending a
child let a node come to own others, and setting a slot may first free the node that was in it.
With the guards of the operations this keeps a valid tree valid.
-/
namespace TaggedText

namespace Tree

open Links

variable {tree tree' : Tree} {id owner parent child : NodeId} {node : Node}

theorem get?_modify (tree : Tree) (id i : NodeId) (f : Node → Node) :
    (tree.modify id f).get? i = if id = i then (tree.get? i).map f else tree.get? i := by
  simp only [get?, modify, Array.getElem?_modify]

@[simp] theorem size_modify (tree : Tree) (id : NodeId) (f : Node → Node) :
    (tree.modify id f).size = tree.size := by
  simp only [size, modify, Array.size_modify]

@[simp] theorem nextSerial_modify (tree : Tree) (id : NodeId) (f : Node → Node) :
    (tree.modify id f).nextSerial = tree.nextSerial := rfl

variable {f : Node → Node}

theorem parent?_modify (hf : ∀ node, (f node).parent = node.parent) :
    (tree.modify id f).parent? = tree.parent? := by
  funext i
  simp only [parent?, get?_modify]
  split
  · cases tree.get? i <;> simp [hf]
  · rfl

theorem ownedBy_modify (h : tree.get? id = some node) :
    (tree.modify id f).ownedBy = Function.update tree.ownedBy id (f node).owned := by
  funext i
  by_cases hi : id = i
  · subst hi
    simp [ownedBy, get?_modify, h]
  · rw [Function.update_of_ne (Ne.symm hi)]
    simp only [ownedBy, get?_modify, hi, if_false]

theorem ownedBy_modify_of_owned_eq (hf : ∀ node, (f node).owned = node.owned) :
    (tree.modify id f).ownedBy = tree.ownedBy := by
  funext i
  simp only [ownedBy, get?_modify]
  split
  · cases tree.get? i <;> simp [hf]
  · rfl

theorem serials_modify (hf : ∀ node, (f node).serial = node.serial) :
    (tree.modify id f).serials = tree.serials := by
  refine List.ext_getElem? fun i => ?_
  simp only [serials, modify, List.getElem?_map, Array.getElem?_toList, Array.getElem?_modify]
  split
  · cases tree.nodes[i]? <;> simp [hf]
  · rfl

theorem distinct_slots_modify
    (h : ∀ i n, tree.get? i = some n → Entries.Distinct n.slots)
    (hf : ∀ n, Entries.Distinct n.slots → Entries.Distinct (f n).slots) :
    ∀ i n, (tree.modify id f).get? i = some n → Entries.Distinct n.slots := by
  intro i n hn
  rw [get?_modify] at hn
  split at hn
  · obtain ⟨m, hm, rfl⟩ := Option.map_eq_some_iff.mp hn
    exact hf m (h i m hm)
  · exact h i n hn

theorem parent?_setParent (h : id < tree.size) (up : Option NodeId) :
    (tree.setParent id up).parent? = Function.update tree.parent? id up := by
  obtain ⟨node, hn⟩ := exists_get? h
  funext i
  by_cases hi : id = i
  · subst hi
    simp [parent?, setParent, get?_modify, hn]
  · rw [Function.update_of_ne (Ne.symm hi)]
    simp only [parent?, setParent, get?_modify, hi, if_false]

theorem ownedBy_setParent (up : Option NodeId) :
    (tree.setParent id up).ownedBy = tree.ownedBy :=
  ownedBy_modify_of_owned_eq fun _ => rfl

theorem serials_setParent (up : Option NodeId) : (tree.setParent id up).serials = tree.serials :=
  serials_modify fun _ => rfl

theorem adopt_singleton (up : NodeId → Option NodeId) (owner id : NodeId) :
    adopt up owner [id] = Function.update up id (some owner) := by
  funext i
  by_cases hi : i = id
  · simp [adopt, hi]
  · simp [adopt, hi]

/-- A change that touches neither links nor numbers keeps a tree valid. -/
theorem Valid.of_eq (h : tree.Valid) (hup : tree'.parent? = tree.parent?)
    (hdown : tree'.ownedBy = tree.ownedBy)
    (hslots : ∀ id node, tree'.get? id = some node → Entries.Distinct node.slots)
    (hserials : tree'.serials = tree.serials) (hnext : tree'.nextSerial = tree.nextSerial) :
    tree'.Valid where
  forest := by
    rw [hup, hdown]
    exact h.forest
  slots := hslots
  serials_nodup := by
    rw [hserials]
    exact h.serials_nodup
  serials_lt := by
    rw [hserials, hnext]
    exact h.serials_lt

theorem valid_empty : Tree.empty.Valid where
  forest := ⟨fun _ _ => by simp [parent?, ownedBy, get?, Tree.empty],
    fun _ => by simp [ownedBy, get?, Tree.empty],
    fun _ => .top (by simp [parent?, get?, Tree.empty])⟩
  slots := fun _ _ h => by simp [get?, Tree.empty] at h
  serials_nodup := List.nodup_nil
  serials_lt := fun _ h => by simp [serials, Tree.empty] at h

/-- Editing what a node holds is no concern of the links. -/
theorem Valid.edit (h : tree.Valid) (id : NodeId) (f : Content → Content) :
    (tree.edit id f).Valid :=
  h.of_eq (parent?_modify fun _ => rfl) (ownedBy_modify_of_owned_eq fun _ => rfl)
    (distinct_slots_modify h.slots fun _ hn => hn) (serials_modify fun _ => rfl) rfl

/-- The tree in which the given nodes name their new owner. -/
def adoptAll (tree : Tree) (owner : NodeId) (children : List NodeId) : Tree :=
  children.foldl (fun t child => t.setParent child (some owner)) tree

theorem parent?_adoptAll (owner : NodeId) {children : List NodeId}
    (h : ∀ c ∈ children, c < tree.size) :
    (tree.adoptAll owner children).parent? = adopt tree.parent? owner children := by
  induction children generalizing tree with
  | nil => exact funext fun i => by simp [adoptAll, adopt]
  | cons child children ih =>
      have hchild : child < tree.size := h child List.mem_cons_self
      have hstep : (tree.adoptAll owner (child :: children)) =
          (tree.setParent child (some owner)).adoptAll owner children := rfl
      rw [hstep, ih fun c hc => by
        simpa [setParent] using h c (List.mem_cons_of_mem _ hc), parent?_setParent hchild]
      funext i
      by_cases hi : i = child <;> simp [adopt, hi, Function.update]

/-- Adopting changes the parent links alone. -/
theorem adoptAll_frame (tree : Tree) (owner : NodeId) (children : List NodeId) :
    (tree.adoptAll owner children).size = tree.size ∧
      (tree.adoptAll owner children).ownedBy = tree.ownedBy ∧
      (tree.adoptAll owner children).serials = tree.serials ∧
      ((∀ i n, tree.get? i = some n → Entries.Distinct n.slots) →
        ∀ i n, (tree.adoptAll owner children).get? i = some n → Entries.Distinct n.slots) := by
  induction children generalizing tree with
  | nil => exact ⟨rfl, rfl, rfl, id⟩
  | cons child children ih =>
      obtain ⟨hsize, hdown, hserials, hslots⟩ := ih (tree.setParent child (some owner))
      exact ⟨hsize.trans (size_modify ..), hdown.trans (ownedBy_setParent _),
        hserials.trans (serials_setParent _),
        fun h => hslots (distinct_slots_modify h fun _ hn => hn)⟩

/-- The tree with one more node. -/
def grow (tree : Tree) (node : Node) (nextSerial : Nat) : Tree :=
  ⟨tree.nodes.push node, nextSerial⟩

theorem get?_grow (tree : Tree) (node : Node) (next i : Nat) :
    (tree.grow node next).get? i = if i = tree.size then some node else tree.get? i :=
  Array.getElem?_push

theorem get?_grow_self (tree : Tree) (node : Node) (next : Nat) :
    (tree.grow node next).get? tree.size = some node := by
  rw [get?_grow, if_pos rfl]

theorem get?_grow_of_lt {i : NodeId} (h : i < tree.size) (next : Nat) :
    (tree.grow node next).get? i = tree.get? i := by
  rw [get?_grow, if_neg (Nat.ne_of_lt h)]

@[simp] theorem size_grow (tree : Tree) (node : Node) (next : Nat) :
    (tree.grow node next).size = tree.size + 1 := by
  simp only [size, grow, Array.size_push]

theorem parent?_grow (tree : Tree) (node : Node) (next : Nat) :
    (tree.grow node next).parent? = Function.update tree.parent? tree.size node.parent := by
  funext i
  by_cases hi : i = tree.size
  · subst hi
    rw [Function.update_self]
    exact parent?_of_get? (get?_grow_self tree node next)
  · rw [Function.update_of_ne hi]
    simp only [parent?, get?_grow, hi, if_false]

theorem ownedBy_grow (tree : Tree) (node : Node) (next : Nat) :
    (tree.grow node next).ownedBy = Function.update tree.ownedBy tree.size node.owned := by
  funext i
  by_cases hi : i = tree.size
  · subst hi
    rw [Function.update_self]
    exact ownedBy_of_get? (get?_grow_self tree node next)
  · rw [Function.update_of_ne hi]
    simp only [ownedBy, get?_grow, hi, if_false]

theorem serials_grow (tree : Tree) (node : Node) (next : Nat) :
    (tree.grow node next).serials = tree.serials ++ [node.serial] := by
  simp [serials, grow]

theorem distinct_slots_grow {next : Nat}
    (h : ∀ i n, tree.get? i = some n → Entries.Distinct n.slots)
    (hnode : Entries.Distinct node.slots) :
    ∀ i n, (tree.grow node next).get? i = some n → Entries.Distinct n.slots := by
  intro i n hn
  rw [get?_grow] at hn
  split at hn
  · exact Option.some.inj hn ▸ hnode
  · exact h i n hn

theorem construct_eq {content : Content} {children : List NodeId}
    {made : NodeId × Tree} (h : tree.construct content children = .ok made) :
    tree.checkChildren tree.size [] children = .ok () ∧ made.1 = tree.size ∧
      made.2 = (tree.adoptAll tree.size children).grow
        { serial := tree.nextSerial, content := content, children := children }
        (tree.nextSerial + 1) := by
  obtain ⟨_, hc, h⟩ := bind_eq_ok_iff.mp h
  cases h
  exact ⟨hc, rfl, rfl⟩

theorem Valid.construct (h : tree.Valid) {content : Content} {children : List NodeId}
    {made : NodeId × Tree} (hc : tree.construct content children = .ok made) :
    made.2.Valid := by
  obtain ⟨hcheck, -, hmade⟩ := construct_eq hc
  rw [hmade]
  have hadopt := checkChildren_eq_ok_iff.mp hcheck
  obtain ⟨hsize, hdown, hserials, hslots⟩ := adoptAll_frame tree tree.size children
  have hup := parent?_adoptAll tree.size hadopt.lt_size
  have hfresh : tree.parent? tree.size = none := parent?_eq_none_of_size_le (Nat.le_refl _)
  have forest : Forest (adopt tree.parent? tree.size children)
      (Function.update tree.ownedBy tree.size children) := by
    refine h.forest.adopt hadopt.nodup hadopt.unowned ?_ ?_
    · intro c hin habove
      exact Nat.ne_of_gt (hadopt.lt_size c hin) (habove.eq_of_top hfresh)
    · rw [ownedBy_eq_nil_of_size_le (Nat.le_refl _), List.append_nil]
  refine ⟨?_, distinct_slots_grow (hslots h.slots) List.nodup_nil, ?_, ?_⟩
  · -- The new node names no owner, as no node of its index did before.
    have hself : Function.update (adopt tree.parent? tree.size children) tree.size none =
        adopt tree.parent? tree.size children := by
      refine Function.update_eq_self_iff.mpr ?_
      have hout : tree.size ∉ children := fun hin => Nat.lt_irrefl _ (hadopt.lt_size _ hin)
      simp only [adopt, hout, if_false, hfresh]
    rw [parent?_grow, ownedBy_grow, hsize, hup, hdown, hself]
    exact forest
  · rw [serials_grow, hserials]
    refine List.nodup_append.mpr ⟨h.serials_nodup, List.nodup_singleton _, ?_⟩
    intro a ha b hb hab
    have hlt := h.serials_lt a ha
    rw [hab, List.mem_singleton.mp hb] at hlt
    exact Nat.lt_irrefl _ hlt
  · intro n hn
    rw [serials_grow, hserials, List.mem_append, List.mem_singleton] at hn
    rcases hn with hn | rfl
    · exact Nat.lt_succ_of_lt (h.serials_lt n hn)
    · exact Nat.lt_succ_self _

/-- A node is attached in steps: it names its owner, its owner is changed, and a node that the
owner gave up for it names no owner any more. -/
def attach (tree : Tree) (parent child : NodeId) (f : Node → Node) (freed : Option NodeId) :
    Tree :=
  let attached := (tree.setParent child (some parent)).modify parent f
  match freed with
  | some id => attached.setParent id none
  | none => attached

theorem push_eq (h : tree.push parent child = .ok tree') :
    tree.checkAttach parent child = .ok () ∧
      tree' = tree.attach parent child
        (fun node => { node with children := node.children ++ [child] }) none := by
  obtain ⟨_, hc, h⟩ := bind_eq_ok_iff.mp h
  cases h
  exact ⟨hc, rfl⟩

theorem setSlot_eq {name : String} (h : tree.setSlot parent name child = .ok tree') :
    tree.checkAttach parent child = .ok () ∧
      tree' = tree.attach parent child
        (fun node => { node with slots := node.slots.insert name child })
        ((tree.get? parent).bind fun node => node.slots.get? name) := by
  obtain ⟨_, hc, h⟩ := bind_eq_ok_iff.mp h
  cases h
  exact ⟨hc, rfl⟩

theorem size_attach (tree : Tree) (parent child : NodeId) (f : Node → Node)
    (freed : Option NodeId) : (tree.attach parent child f freed).size = tree.size := by
  cases freed with
  | none => simp [attach, setParent]
  | some id => simp [attach, setParent]

theorem nextSerial_attach (tree : Tree) (parent child : NodeId) (f : Node → Node)
    (freed : Option NodeId) : (tree.attach parent child f freed).nextSerial = tree.nextSerial := by
  cases freed with
  | none => rfl
  | some id => rfl

section
variable {f : Node → Node} {freed : Option NodeId}

theorem ownedBy_attach (hn : tree.get? parent = some node) (hne : child ≠ parent) :
    (tree.attach parent child f freed).ownedBy =
      Function.update tree.ownedBy parent (f node).owned := by
  have hat : (tree.setParent child (some parent)).get? parent = some node := by
    rw [setParent, get?_modify, if_neg hne, hn]
  have hmod : ((tree.setParent child (some parent)).modify parent f).ownedBy =
      Function.update tree.ownedBy parent (f node).owned := by
    rw [ownedBy_modify hat, ownedBy_setParent]
  cases freed with
  | none => exact hmod
  | some id => exact (ownedBy_setParent _).trans hmod

theorem parent?_attach (hf : ∀ n, (f n).parent = n.parent) (hchild : child < tree.size)
    (hfreed : ∀ id ∈ freed, id < tree.size) :
    (tree.attach parent child f freed).parent? =
      match freed with
      | some id => Function.update (adopt tree.parent? parent [child]) id none
      | none => adopt tree.parent? parent [child] := by
  have hmod : ((tree.setParent child (some parent)).modify parent f).parent? =
      adopt tree.parent? parent [child] := by
    rw [parent?_modify hf, parent?_setParent hchild, adopt_singleton]
  cases freed with
  | none => exact hmod
  | some id =>
      have hid : id < ((tree.setParent child (some parent)).modify parent f).size := by
        simpa [setParent] using hfreed id rfl
      rw [← hmod]
      exact parent?_setParent hid none

theorem serials_attach (hf : ∀ n, (f n).serial = n.serial) :
    (tree.attach parent child f freed).serials = tree.serials := by
  have hmod : ((tree.setParent child (some parent)).modify parent f).serials = tree.serials :=
    (serials_modify hf).trans (serials_setParent _)
  cases freed with
  | none => exact hmod
  | some id => exact (serials_setParent _).trans hmod

theorem distinct_slots_attach (h : ∀ i n, tree.get? i = some n → Entries.Distinct n.slots)
    (hf : ∀ n, Entries.Distinct n.slots → Entries.Distinct (f n).slots) :
    ∀ i n, (tree.attach parent child f freed).get? i = some n → Entries.Distinct n.slots := by
  have hset : ∀ i n, (tree.setParent child (some parent)).get? i = some n →
      Entries.Distinct n.slots := distinct_slots_modify h fun _ hn => hn
  have hmod : ∀ i n, ((tree.setParent child (some parent)).modify parent f).get? i = some n →
      Entries.Distinct n.slots := distinct_slots_modify hset hf
  cases freed with
  | none => exact hmod
  | some id => exact distinct_slots_modify hmod fun _ hn => hn

/-- Attaching a node keeps a tree valid where the guard lets it pass and the owner has, besides
what it gave up, what it had before and the new node. -/
theorem Valid.attach (h : tree.Valid) (hcheck : tree.checkAttach parent child = .ok ())
    (hn : tree.get? parent = some node) (hparent : ∀ n, (f n).parent = n.parent)
    (hserial : ∀ n, (f n).serial = n.serial)
    (hslots : ∀ n, Entries.Distinct n.slots → Entries.Distinct (f n).slots)
    (howned : (freed.toList ++ (f node).owned).Perm (child :: node.owned))
    (hfreed : ∀ id ∈ freed, id ∈ node.owned) :
    (tree.attach parent child f freed).Valid := by
  have hfit := h.checkAttach_eq_ok_iff.mp hcheck
  have hdown : tree.ownedBy parent = node.owned := ownedBy_of_get? hn
  have hfreed_lt : ∀ id ∈ freed, id < tree.size := fun id hid =>
    h.owned_lt_size (hdown ▸ hfreed id hid)
  have adopted : ∀ owned : List NodeId, owned.Perm (child :: node.owned) →
      Forest (adopt tree.parent? parent [child]) (Function.update tree.ownedBy parent owned) := by
    intro owned hperm
    refine h.forest.adopt (List.nodup_singleton child) ?_ ?_ (hdown ▸ hperm)
    · intro c hin
      exact List.mem_singleton.mp hin ▸ hfit.unowned
    · intro c hin
      exact List.mem_singleton.mp hin ▸ hfit.apart
  refine ⟨?_, distinct_slots_attach h.slots hslots, ?_, ?_⟩
  · rw [parent?_attach hparent hfit.child_lt hfreed_lt, ownedBy_attach hn hfit.ne]
    cases freed with
    | none => exact adopted _ howned
    | some id =>
        -- For a moment the owner has both the new node and the one that it gives up.
        have both := adopted _ (List.Perm.refl (child :: node.owned))
        have hgiven : (id :: (f node).owned).Perm
            (Function.update tree.ownedBy parent (child :: node.owned) parent) := by
          rwa [Function.update_self]
        have released := both.release hgiven
        rwa [Function.update_idem] at released
  · rw [serials_attach hserial]
    exact h.serials_nodup
  · rw [serials_attach hserial]
    rw [nextSerial_attach]
    exact h.serials_lt

end

theorem Valid.push (h : tree.Valid) (hp : tree.push parent child = .ok tree') :
    tree'.Valid := by
  obtain ⟨hcheck, rfl⟩ := push_eq hp
  obtain ⟨node, hn⟩ := exists_get? (h.checkAttach_eq_ok_iff.mp hcheck).parent_lt
  refine h.attach hcheck hn (fun _ => rfl) (fun _ => rfl) (fun _ hd => hd) ?_ (by simp)
  simp only [Option.toList_none, List.nil_append, Node.owned, ← List.append_assoc]
  exact List.perm_append_singleton child _

theorem Valid.setSlot {name : String} (h : tree.Valid)
    (hs : tree.setSlot parent name child = .ok tree') : tree'.Valid := by
  obtain ⟨hcheck, rfl⟩ := setSlot_eq hs
  obtain ⟨node, hn⟩ := exists_get? (h.checkAttach_eq_ok_iff.mp hcheck).parent_lt
  have hprevious : ((tree.get? parent).bind fun node => node.slots.get? name) =
      node.slots.get? name := by
    rw [hn, Option.bind_some]
  rw [hprevious]
  refine h.attach hcheck hn (fun _ => rfl) (fun _ => rfl)
    (fun _ hd => Entries.distinct_insert hd) ?_ ?_
  · cases hget : node.slots.get? name with
    | none =>
        simp only [Option.toList_none, List.nil_append, Node.owned,
          Entries.values_insert_of_get?_eq_none hget, List.append_assoc]
        exact List.perm_middle
    | some previous =>
        exact (Entries.perm_values_insert hget).append_right node.children
  · intro previous hget
    exact List.mem_append_left _ (Entries.mem_values_of_get? hget)

end Tree

end TaggedText
