import TaggedText.Proofs.Lineage.Ledger
import TaggedText.Proofs.Resolving.Isomorphism
import TaggedText.Proofs.Session

/-!
# Where the nodes of a session come from

The numbers for diagnosis tell the nodes of a tree and of its resolved copies apart only as long as
just one of the trees goes on growing. A resolved copy numbers new nodes as its source would, so once
both have grown, a number stands for two nodes that have nothing to do with each other.

Main statement: in a session of trees that come from one empty tree by resolving, nodes with the same
number have the same origin exactly if every node was made in a tree that no other was ahead of. The
session is followed by a ledger, to which an operation does one of three things.
-/
namespace TaggedText

namespace Operation

/-- Operations on a family of trees that grows by resolving alone. -/
def InFamily : Operation → Prop
  | construct _ _ _ => True
  | push _ _ _ => True
  | setSlot _ _ _ _ => True
  | resolve _ _ _ => True
  | _ => False

end Operation

namespace Session

def serial? (session : Session) (a : Address) : Option Nat :=
  session[a.1]?.bind fun tree => tree.serial? a.2

def counter? (session : Session) (i : Nat) : Option Nat :=
  session[i]?.map Tree.nextSerial

/-- The node that an operation makes, and its number. -/
def made? (session : Session) : Operation → Option (Address × Nat)
  | .construct i content children =>
      session[i]?.bind fun tree =>
        (tree.construct content children).toOption.map fun made => ((i, made.1), tree.nextSerial)
  | _ => none

/-- The tree that an operation copies from, and its nodes in the order of their copies. -/
def copied? (session : Session) : Operation → Option (Nat × List NodeId)
  | .resolve i root _ =>
      session[i]?.bind fun tree =>
        if root < tree.size then some (i, root :: tree.walk root) else none
  | _ => none

/-- If the operation makes a node, no tree of the session is ahead of the tree that it makes it in. -/
def Abreast (session : Session) (operation : Operation) : Prop :=
  ∀ made ∈ session.made? operation, ∀ tree ∈ session, tree.nextSerial ≤ made.2

/-- Every operation that makes a node does so in a tree that no other tree is ahead of. -/
def KeepsAbreast (session : Session) : List Operation → Prop
  | [] => True
  | operation :: operations =>
      session.Abreast operation ∧ (session.step operation).KeepsAbreast operations

instance (session : Session) (operation : Operation) : Decidable (session.Abreast operation) :=
  inferInstanceAs (Decidable (∀ made ∈ session.made? operation, ∀ tree ∈ session,
    tree.nextSerial ≤ made.2))

instance decidableKeepsAbreast (session : Session) :
    (operations : List Operation) → Decidable (session.KeepsAbreast operations)
  | [] => .isTrue trivial
  | operation :: operations =>
      have := decidableKeepsAbreast (session.step operation) operations
      inferInstanceAs (Decidable (session.Abreast operation ∧
        (session.step operation).KeepsAbreast operations))

end Session

/-- A session with the node, of those that were made, that each of its nodes comes from. -/
structure Lineage where
  session : Session
  origin? : Address → Option Address

namespace Lineage

/-- One empty tree. -/
def start : Lineage :=
  ⟨[Tree.empty], fun _ => none⟩

def step (lineage : Lineage) (operation : Operation) : Lineage where
  session := lineage.session.step operation
  origin? :=
    match lineage.session.made? operation, lineage.session.copied? operation with
    | some (made, _), _ => Function.update lineage.origin? made (some made)
    | none, some (source, order) => fun a =>
        if a.1 = lineage.session.length then
          order[a.2]?.bind fun id => lineage.origin? (source, id)
        else lineage.origin? a
    | none, none => lineage.origin?

/-- The session after a list of operations. -/
def run (operations : List Operation) : Lineage :=
  operations.foldl step start

def ledger (lineage : Lineage) : Ledger where
  serial? := lineage.session.serial?
  counter? := lineage.session.counter?
  origin? := lineage.origin?

end Lineage

/-- Nodes with the same number come from the same node. -/
def UniqueSerials (operations : List Operation) : Prop :=
  ∀ a b n, (Session.run operations).serial? a = some n →
    (Session.run operations).serial? b = some n →
      ∃ origin, (Lineage.run operations).origin? a = some origin ∧
        (Lineage.run operations).origin? b = some origin

theorem getElem?_concat {α : Type} (list : List α) (a : α) (k : Nat) :
    (list ++ [a])[k]? = if k = list.length then some a else list[k]? := by
  by_cases hk : k = list.length
  · rw [if_pos hk, hk, List.getElem?_concat_length]
  · rw [if_neg hk]
    grind

namespace Tree

variable {tree tree' : Tree} {parent child root : NodeId}

theorem serial?_of_serials_eq (h : tree'.serials = tree.serials) : tree'.serial? = tree.serial? := by
  funext id
  rw [← getElem?_serials, ← getElem?_serials, h]

theorem numbers_push (h : tree.push parent child = .ok tree') :
    tree'.serials = tree.serials ∧ tree'.nextSerial = tree.nextSerial := by
  obtain ⟨-, rfl⟩ := push_eq h
  exact ⟨serials_attach fun _ => rfl, nextSerial_attach ..⟩

theorem numbers_setSlot {name : String} (h : tree.setSlot parent name child = .ok tree') :
    tree'.serials = tree.serials ∧ tree'.nextSerial = tree.nextSerial := by
  obtain ⟨-, rfl⟩ := setSlot_eq h
  exact ⟨serials_attach fun _ => rfl, nextSerial_attach ..⟩

theorem serial?_construct {content : Content} {children : List NodeId} {made : NodeId × Tree}
    (h : tree.construct content children = .ok made) :
    made.2.serial? = Function.update tree.serial? made.1 (some tree.nextSerial) := by
  obtain ⟨-, hid, htree⟩ := construct_eq h
  have hserials : made.2.serials = tree.serials ++ [tree.nextSerial] := by
    rw [htree, serials_grow, (adoptAll_frame ..).2.2.1]
  have hlength : tree.serials.length = tree.size := by
    rw [serials, List.length_map, Array.length_toList, size]
  funext id
  rw [← getElem?_serials, hserials, getElem?_concat, hlength, hid, Function.update_apply,
    getElem?_serials]

theorem nextSerial_construct {content : Content} {children : List NodeId} {made : NodeId × Tree}
    (h : tree.construct content children = .ok made) : made.2.nextSerial = tree.nextSerial + 1 := by
  rw [(construct_eq h).2.2]
  rfl

/-- The copies bear the numbers of the nodes in the order of the walk. -/
theorem serial?_resolve {settings : Settings} {copy : Document} (hs : tree.Valid)
    (h : tree.resolve root settings = .ok copy) :
    copy.tree.serial? = (fun k => (root :: tree.walk root)[k]?.bind tree.serial?) ∧
      copy.tree.nextSerial = tree.nextSerial := by
  have hroot : root < tree.size := by
    by_contra hge
    rw [Tree.resolve, dif_neg hge] at h
    cases h
  obtain ⟨order, horder⟩ := hs.exists_documentOrder hroot
  obtain rfl := horder.eq_walk
  have hcopy := hs.isCopy horder h
  refine ⟨funext fun k => ?_, hcopy.nextSerial_eq⟩
  rw [serial?]
  cases hk : (root :: tree.walk root)[k]? with
  | none =>
      have hlength : copy.tree.size ≤ k := by
        rw [hcopy.size_eq]
        exact List.getElem?_eq_none_iff.mp hk
      rw [get?_eq_none_iff.mpr hlength]
      rfl
  | some id =>
      obtain ⟨node, hnode⟩ := exists_get? (horder.lt_size id (List.mem_of_getElem? hk))
      rw [hcopy.get?_eq k id node hk hnode, Option.bind_some, serial?, hnode]
      rfl

end Tree

namespace Session

variable {session : Session} {tree tree' : Tree} {i : Nat}

theorem serial?_set (h : i < session.length) (a : Address) :
    serial? (session.set i tree') a = if a.1 = i then tree'.serial? a.2 else session.serial? a := by
  rw [serial?, List.getElem?_set]
  by_cases ha : a.1 = i
  · rw [if_pos ha.symm, if_pos ha, if_pos (ha ▸ h), Option.bind_some]
  · rw [if_neg (Ne.symm ha), if_neg ha, serial?]

theorem counter?_set (h : i < session.length) :
    counter? (session.set i tree') = Function.update session.counter? i (some tree'.nextSerial) := by
  funext j
  rw [counter?, List.getElem?_set, Function.update_apply, counter?]
  by_cases hj : j = i
  · rw [if_pos hj.symm, if_pos hj, if_pos (hj ▸ h), Option.map_some]
  · rw [if_neg (Ne.symm hj), if_neg hj]

theorem serial?_concat (session : Session) (tree : Tree) (a : Address) :
    serial? (session ++ [tree]) a =
      if a.1 = session.length then tree.serial? a.2 else session.serial? a := by
  rw [serial?, getElem?_concat]
  by_cases ha : a.1 = session.length
  · rw [if_pos ha, if_pos ha, Option.bind_some]
  · rw [if_neg ha, if_neg ha, serial?]

theorem counter?_concat (session : Session) (tree : Tree) :
    counter? (session ++ [tree]) =
      Function.update session.counter? session.length (some tree.nextSerial) := by
  funext j
  rw [counter?, getElem?_concat, Function.update_apply, counter?]
  by_cases hj : j = session.length
  · rw [if_pos hj, if_pos hj, Option.map_some]
  · rw [if_neg hj, if_neg hj]

theorem update_eq_set {f : Tree → Except TreeError Tree} (h : session[i]? = some tree)
    (hf : f tree = .ok tree') : session.update i f = session.set i tree' := by
  rw [update, h, Option.map_some, hf]

theorem update_eq_self {f : Tree → Except TreeError Tree}
    (h : ∀ tree, session[i]? = some tree → ∃ e, f tree = .error e) : session.update i f = session := by
  rw [update]
  cases htree : session[i]? with
  | none => rfl
  | some tree =>
      obtain ⟨e, he⟩ := h tree htree
      rw [Option.map_some, he]

/-- A change that leaves the numbers of a tree as they are leaves those of the session. -/
theorem numbers_update {f : Tree → Except TreeError Tree} (hf : ∀ tree tree', f tree = .ok tree' →
      tree'.serials = tree.serials ∧ tree'.nextSerial = tree.nextSerial) :
    (session.update i f).serial? = session.serial? ∧
      (session.update i f).counter? = session.counter? := by
  unfold update
  split
  next tree' hmap =>
    obtain ⟨tree, htree, hok⟩ := Option.map_eq_some_iff.mp hmap
    obtain ⟨hserials, hnext⟩ := hf tree tree' hok
    have hlt : i < session.length := (List.getElem?_eq_some_iff.mp htree).choose
    constructor
    · funext a
      rw [serial?_set hlt, Tree.serial?_of_serials_eq hserials]
      split
      next ha => rw [serial?, ha, htree, Option.bind_some]
      next => rfl
    · rw [counter?_set hlt, hnext]
      apply Function.update_eq_self_iff.mpr
      rw [counter?, htree, Option.map_some]
  next => exact ⟨rfl, rfl⟩

theorem exists_of_made? {content : Content} {children : List NodeId} {a : Address} {n : Nat}
    (h : session.made? (.construct i content children) = some (a, n)) :
    ∃ tree made, session[i]? = some tree ∧ tree.construct content children = .ok made ∧
      a = (i, made.1) ∧ n = tree.nextSerial := by
  obtain ⟨tree, htree, h⟩ := Option.bind_eq_some_iff.mp h
  obtain ⟨made, hmade, h⟩ := Option.map_eq_some_iff.mp h
  cases h
  exact ⟨tree, made, htree, toOption_eq_some_iff.mp hmade, rfl, rfl⟩

theorem step_construct_eq_self {content : Content} {children : List NodeId}
    (h : session.made? (.construct i content children) = none) :
    session.step (.construct i content children) = session := by
  apply update_eq_self
  intro tree htree
  cases hconstruct : tree.construct content children with
  | error e => exact ⟨e, rfl⟩
  | ok made =>
      rw [made?, htree, Option.bind_some, hconstruct] at h
      cases h

theorem serial?_set_construct {content : Content} {children : List NodeId} {made : NodeId × Tree}
    (htree : session[i]? = some tree) (hmade : tree.construct content children = .ok made) :
    serial? (session.set i made.2) =
      Function.update session.serial? (i, made.1) (some tree.nextSerial) := by
  have hlt : i < session.length := (List.getElem?_eq_some_iff.mp htree).choose
  funext a
  obtain ⟨j, k⟩ := a
  rw [serial?_set hlt, Tree.serial?_construct hmade, Function.update_apply, Function.update_apply]
  by_cases hj : j = i
  · simp [hj, serial?, htree]
  · simp [hj]

theorem exists_of_copied? {root : NodeId} {settings : Settings} {pair : Nat × List NodeId}
    (h : session.copied? (.resolve i root settings) = some pair) :
    ∃ tree, session[i]? = some tree ∧ root < tree.size := by
  obtain ⟨tree, htree, h⟩ := Option.bind_eq_some_iff.mp h
  by_cases hroot : root < tree.size
  · exact ⟨tree, htree, hroot⟩
  · rw [if_neg hroot] at h
    cases h

theorem step_resolve_eq_self {root : NodeId} {settings : Settings}
    (h : session.copied? (.resolve i root settings) = none) :
    session.step (.resolve i root settings) = session := by
  have hnone : (session[i]?.bind fun tree =>
      (tree.resolve root settings).toOption.map Document.tree) = none := by
    apply Option.bind_eq_none_iff.mpr
    intro tree htree
    rw [copied?, htree, Option.bind_some] at h
    have hroot : ¬ root < tree.size := by
      intro hlt
      rw [if_pos hlt] at h
      cases h
    rw [Tree.resolve, dif_neg hroot]
    rfl
  rw [step, hnone, add, Option.toList_none, List.append_nil]

end Session

namespace Lineage

variable {lineage : Lineage} {operation : Operation}

theorem step_of_kept (hserial : (lineage.session.step operation).serial? = lineage.session.serial?)
    (hcounter : (lineage.session.step operation).counter? = lineage.session.counter?)
    (hmade : lineage.session.made? operation = none)
    (hcopied : lineage.session.copied? operation = none) :
    lineage.ledger.Step ((lineage.session.made? operation).map Prod.snd)
      (lineage.step operation).ledger := by
  have hsame : (lineage.step operation).ledger = lineage.ledger := by
    simp only [ledger, step, hserial, hcounter, hmade, hcopied]
  rw [hsame, hmade]
  exact .kept

theorem ledger_construct {tree : Tree} {i : Nat} {content : Content} {children : List NodeId}
    {made : NodeId × Tree} (htree : lineage.session[i]? = some tree)
    (hmade : tree.construct content children = .ok made) :
    (lineage.step (.construct i content children)).ledger =
      lineage.ledger.make (i, made.1) tree.nextSerial := by
  have hlt : i < lineage.session.length := (List.getElem?_eq_some_iff.mp htree).choose
  have hsession : lineage.session.step (.construct i content children) =
      lineage.session.set i made.2 :=
    Session.update_eq_set htree (by rw [hmade]; rfl)
  have hgiven : lineage.session.made? (.construct i content children) =
      some ((i, made.1), tree.nextSerial) := by
    rw [Session.made?, htree, Option.bind_some, hmade]
    rfl
  apply Ledger.ext
  · exact (congrArg Session.serial? hsession).trans (Session.serial?_set_construct htree hmade)
  · have hcounter : Session.counter? (lineage.session.set i made.2) = _ := Session.counter?_set hlt
    rw [Tree.nextSerial_construct hmade] at hcounter
    exact (congrArg Session.counter? hsession).trans hcounter
  · simp only [ledger, step, hgiven, Ledger.make]

theorem step_construct (i : Nat) (content : Content) (children : List NodeId) :
    lineage.ledger.Step ((lineage.session.made? (.construct i content children)).map Prod.snd)
      (lineage.step (.construct i content children)).ledger := by
  cases hmade : lineage.session.made? (.construct i content children) with
  | none =>
      have hsession := Session.step_construct_eq_self hmade
      rw [← hmade]
      exact step_of_kept (by rw [hsession]) (by rw [hsession]) hmade rfl
  | some pair =>
      obtain ⟨a, n⟩ := pair
      obtain ⟨tree, made, htree, hconstruct, rfl, rfl⟩ := Session.exists_of_made? hmade
      rw [ledger_construct htree hconstruct]
      apply Ledger.Step.made
      · exact congrArg (Option.map Tree.nextSerial) htree
      · have hnew : tree.get? made.1 = none := by
          rw [(Tree.construct_eq hconstruct).2.1]
          exact Tree.get?_eq_none_iff.mpr (Nat.le_refl _)
        change (lineage.session[i]?.bind fun tree => tree.serial? made.1) = none
        rw [htree, Option.bind_some, Tree.serial?, hnew, Option.map_none]

theorem ledger_resolve {tree : Tree} {i : Nat} {root : NodeId} {settings : Settings}
    (htree : lineage.session[i]? = some tree) (hvalid : tree.Valid) (hroot : root < tree.size) :
    (lineage.step (.resolve i root settings)).ledger =
      lineage.ledger.copy i lineage.session.length tree.nextSerial (root :: tree.walk root) := by
  obtain ⟨copy, hcopy⟩ : ∃ copy, tree.resolve root settings = .ok copy := by
    rw [Tree.resolve, dif_pos hroot]
    exact ⟨_, rfl⟩
  have hsession : lineage.session.step (.resolve i root settings) =
      lineage.session ++ [copy.tree] := by
    rw [Session.step, htree, Option.bind_some, hcopy]
    rfl
  have hcopied : lineage.session.copied? (.resolve i root settings) =
      some (i, root :: tree.walk root) := by
    rw [Session.copied?, htree, Option.bind_some, if_pos hroot]
  have hmade : lineage.session.made? (.resolve i root settings) = none := rfl
  obtain ⟨hserial, hnext⟩ := Tree.serial?_resolve hvalid hcopy
  apply Ledger.ext
  · have hsource : (fun id => lineage.session.serial? (i, id)) = tree.serial? := by
      funext id
      rw [Session.serial?, htree, Option.bind_some]
    funext a
    change (lineage.session.step (.resolve i root settings)).serial? a = _
    rw [hsession, Session.serial?_concat, hserial]
    simp only [Ledger.copy, ledger, hsource]
  · have hcounter := Session.counter?_concat lineage.session copy.tree
    rw [hnext] at hcounter
    exact (congrArg Session.counter? hsession).trans hcounter
  · simp only [ledger, step, hmade, hcopied, Ledger.copy]

theorem step_resolve (hvalid : ∀ tree ∈ lineage.session, tree.Valid) (i : Nat) (root : NodeId)
    (settings : Settings) :
    lineage.ledger.Step none (lineage.step (.resolve i root settings)).ledger := by
  cases hcopied : lineage.session.copied? (.resolve i root settings) with
  | none =>
      have hsession := Session.step_resolve_eq_self hcopied
      exact step_of_kept (by rw [hsession]) (by rw [hsession]) rfl hcopied
  | some pair =>
      obtain ⟨tree, htree, hroot⟩ := Session.exists_of_copied? hcopied
      rw [ledger_resolve htree (hvalid tree (List.mem_of_getElem? htree)) hroot]
      apply Ledger.Step.copied
      · exact congrArg (Option.map Tree.nextSerial) htree
      · change (lineage.session[lineage.session.length]?).map Tree.nextSerial = none
        rw [List.getElem?_eq_none (Nat.le_refl _), Option.map_none]

/-- An operation of the family is a step of the ledger. -/
theorem ledger_step (hvalid : ∀ tree ∈ lineage.session, tree.Valid) (h : operation.InFamily) :
    lineage.ledger.Step ((lineage.session.made? operation).map Prod.snd)
      (lineage.step operation).ledger := by
  cases operation with
  | construct i content children => exact step_construct i content children
  | push i parent child =>
      have hnumbers : (lineage.session.step (.push i parent child)).serial? = _ ∧ _ :=
        Session.numbers_update fun _ _ => Tree.numbers_push
      exact step_of_kept hnumbers.1 hnumbers.2 rfl rfl
  | setSlot i parent name child =>
      have hnumbers : (lineage.session.step (.setSlot i parent name child)).serial? = _ ∧ _ :=
        Session.numbers_update fun _ _ => Tree.numbers_setSlot
      exact step_of_kept hnumbers.1 hnumbers.2 rfl rfl
  | resolve i root settings => exact step_resolve hvalid i root settings
  | create => cases h
  | edit => cases h
  | clone => cases h
  | parse => cases h

theorem session_run (operations : List Operation) :
    (run operations).session = Session.run operations := by
  have hrun : ∀ lineage : Lineage,
      (operations.foldl step lineage).session = operations.foldl Session.step lineage.session := by
    induction operations with
    | nil => exact fun _ => rfl
    | cons operation operations ih => exact fun lineage => ih (lineage.step operation)
  exact hrun start

theorem sound_start : start.ledger.Sound := by
  have hserial : ∀ a, Session.serial? [Tree.empty] a = none := by
    rintro ⟨i, id⟩
    cases i with
    | zero => rfl
    | succ i => rfl
  constructor
  · intro a n ha
    cases (hserial a).symm.trans ha
  · intro a n ha
    cases (hserial a).symm.trans ha
  · intro i c n hc hlt
    cases i with
    | zero =>
        cases hc
        exact absurd hlt (Nat.not_lt_zero n)
    | succ i => cases hc

theorem abreast_iff : (∀ n ∈ (lineage.session.made? operation).map Prod.snd,
    lineage.ledger.Abreast n) ↔ lineage.session.Abreast operation := by
  constructor
  · intro h made hmade tree htree
    obtain ⟨i, hi⟩ := List.getElem?_of_mem htree
    exact h made.2 (Option.mem_map_of_mem Prod.snd hmade) i tree.nextSerial
      (congrArg (Option.map Tree.nextSerial) hi)
  · intro h n hn i c hc
    obtain ⟨made, hmade, rfl⟩ := Option.mem_map.mp hn
    obtain ⟨tree, htree, rfl⟩ := Option.map_eq_some_iff.mp hc
    exact h made hmade tree (List.mem_of_getElem? htree)

/-- Whatever numbers there are at first, they stay unique exactly if no tree is ahead of one in
which a node is made. -/
theorem unique_foldl_iff {operations : List Operation}
    (hvalid : ∀ tree ∈ lineage.session, tree.Valid) (hsound : lineage.ledger.Sound)
    (h : ∀ operation ∈ operations, operation.InFamily) :
    (operations.foldl step lineage).ledger.Unique ↔
      lineage.ledger.Unique ∧ lineage.session.KeepsAbreast operations := by
  induction operations generalizing lineage with
  | nil => exact (and_iff_left trivial).symm
  | cons operation operations ih =>
      obtain ⟨hoperation, hoperations⟩ := List.forall_mem_cons.mp h
      have hstep := ledger_step hvalid hoperation
      have hnext := Session.valid_step hvalid operation
      -- What the first operation asks for and what the others ask for of the next session.
      rw [List.foldl_cons, ih hnext (hsound.step hstep) hoperations, hsound.unique_step_iff hstep,
        abreast_iff, and_assoc]
      rfl

end Lineage

/-- In a family of trees that grows by resolving, nodes with the same number come from the same node
exactly if every node was made in a tree that no other tree was ahead of. -/
theorem uniqueSerials_iff (operations : List Operation)
    (h : ∀ operation ∈ operations, operation.InFamily) :
    UniqueSerials operations ↔ Session.KeepsAbreast [Tree.empty] operations := by
  have hvalid : ∀ tree ∈ [Tree.empty], tree.Valid :=
    List.forall_mem_singleton.mpr Tree.valid_empty
  have hrun := Lineage.unique_foldl_iff hvalid Lineage.sound_start h
  have hstart : Lineage.start.ledger.Unique := by
    intro a b n ha
    obtain ⟨origin, horigin, _⟩ := Lineage.sound_start.exists_origin a n ha
    cases horigin
  rw [UniqueSerials, ← Lineage.session_run]
  exact hrun.trans (and_iff_right hstart)

/-- The numbers stay unique where the source is left alone and only the newest copy grows. -/
theorem uniqueSerials_newest :
    let operations : List Operation := [.construct 0 {} [], .construct 0 {} [0], .resolve 0 1 {},
      .construct 1 {} [], .push 1 0 2, .resolve 1 0 {}, .construct 2 {} []]
    (∀ operation ∈ operations, operation.InFamily) ∧ UniqueSerials operations := by
  intro operations
  have hfamily : ∀ operation ∈ operations, operation.InFamily := by
    simp only [operations, List.forall_mem_cons]
    exact ⟨trivial, trivial, trivial, trivial, trivial, trivial, trivial, nofun⟩
  have habreast : Session.KeepsAbreast [Tree.empty] operations := by decide
  exact ⟨hfamily, (uniqueSerials_iff operations hfamily).mpr habreast⟩

/-- A tree is resolved, and then both it and the copy get a new node, which bear the same number. -/
theorem not_uniqueSerials_resolved :
    let operations : List Operation :=
      [.construct 0 {} [], .resolve 0 0 {}, .construct 0 {} [], .construct 1 {} []]
    (∀ operation ∈ operations, operation.InFamily) ∧ ¬ UniqueSerials operations := by
  intro operations
  constructor
  · simp only [operations, List.forall_mem_cons]
    exact ⟨trivial, trivial, trivial, trivial, nofun⟩
  · intro hunique
    have hsource : (Session.run operations).serial? (0, 1) = some 1 := by decide
    have hcopy : (Session.run operations).serial? (1, 1) = some 1 := by decide
    obtain ⟨origin, horigin, hother⟩ := hunique (0, 1) (1, 1) 1 hsource hcopy
    have hmade : (Lineage.run operations).origin? (0, 1) = some (0, 1) := by decide
    have hmade' : (Lineage.run operations).origin? (1, 1) = some (1, 1) := by decide
    cases hmade.symm.trans horigin
    cases hmade'.symm.trans hother

end TaggedText
