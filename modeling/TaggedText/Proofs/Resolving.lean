import TaggedText.Proofs.Session
import TaggedText.Proofs.Walk

/-!
# The stack of a resolved copy

Nodes are taken from the stack in document order, and each is copied when it is taken. What a copy
comes to own is fixed then: a pending node goes to one copy alone, so of all the nodes that are
taken, those that go to a copy are what its node owns, in the same order. A copy is therefore known
from its own node and from the numbers of the copies of what that node owns.
-/
namespace TaggedText

namespace Tree

open Links

variable {source : Tree} {settings : Settings} {root id : NodeId} {node : Node}
variable {p : Pending} {stack taken : List Pending} {copies : Array Node} {n k fuel : Nat}
variable {order : List NodeId}

/-- The pending nodes in the order in which they are copied; `n` copies stand before them. -/
inductive Taken (source : Tree) : Nat → List Pending → List Pending → Prop
  | nil {n : Nat} : Taken source n [] []
  | cons {n : Nat} {p : Pending} {stack taken : List Pending} {node : Node} :
      source.get? p.id = some node → Taken source (n + 1) (pendingOf node n ++ stack) taken →
      Taken source n (p :: stack) (p :: taken)

theorem map_id_pendingOf (node : Node) (copy : NodeId) :
    (pendingOf node copy).map Pending.id = node.owned := by
  simp [pendingOf, Node.owned, Function.comp_def]

/-- The nodes are copied in document order. -/
theorem exists_taken (n : Nat) (h : Preorder source.ownedBy (stack.map Pending.id) order)
    (hlt : ∀ id ∈ order, id < source.size) :
    ∃ taken, Taken source n stack taken ∧ taken.map Pending.id = order := by
  induction order generalizing n stack with
  | nil =>
      match stack with
      | [] => exact ⟨[], .nil, rfl⟩
      | p :: stack => cases h
  | cons id order ih =>
      match stack with
      | [] => cases h
      | p :: stack =>
          obtain ⟨rest, heq, hrest⟩ := Preorder.cons_iff.mp h
          obtain ⟨rfl, rfl⟩ := List.cons.inj heq
          obtain ⟨node, hnode⟩ := exists_get? (hlt p.id List.mem_cons_self)
          rw [ownedBy_of_get? hnode, ← map_id_pendingOf node n, ← List.map_append] at hrest
          obtain ⟨taken, htaken, hids⟩ :=
            ih (n + 1) hrest fun c hc => hlt c (List.mem_cons_of_mem _ hc)
          exact ⟨p :: taken, .cons hnode htaken, by rw [List.map_cons, hids]⟩

/-- Whether the copy of a pending node goes to the `k`-th copy. -/
def Pending.goesTo (k : NodeId) (p : Pending) : Bool :=
  p.place.any fun place => place.owner == k

/-- All pending nodes go to one of the first `n` copies, or nowhere. -/
def GoBelow (n : Nat) (stack : List Pending) : Prop :=
  ∀ p ∈ stack, ∀ place ∈ p.place, place.owner < n

theorem exists_place_of_mem_pendingOf (h : p ∈ pendingOf node n) :
    ∃ place, p.place = some place ∧ place.owner = n := by
  rcases List.mem_append.mp h with h | h
  · obtain ⟨slot, _, rfl⟩ := List.mem_map.mp h
    exact ⟨_, rfl, rfl⟩
  · obtain ⟨child, _, rfl⟩ := List.mem_map.mp h
    exact ⟨_, rfl, rfl⟩

theorem GoBelow.step (h : GoBelow n (p :: stack)) :
    GoBelow (n + 1) (pendingOf node n ++ stack) := by
  intro q hq place hplace
  rcases List.mem_append.mp hq with hq | hq
  · obtain ⟨place', hplace', rfl⟩ := exists_place_of_mem_pendingOf hq
    obtain rfl := Option.some.inj (hplace.symm.trans hplace')
    exact Nat.lt_succ_self _
  · exact Nat.lt_succ_of_lt (h q (List.mem_cons_of_mem _ hq) place hplace)

theorem goesTo_iff : p.goesTo k = true ↔ ∃ place, p.place = some place ∧ place.owner = k := by
  simp [Pending.goesTo, Option.any_eq_true]

theorem filter_pendingOf_self (node : Node) (k : NodeId) :
    (pendingOf node k).filter (Pending.goesTo k) = pendingOf node k :=
  List.filter_eq_self.mpr fun _ hq => goesTo_iff.mpr (exists_place_of_mem_pendingOf hq)

theorem filter_pendingOf_of_ne (node : Node) (hne : n ≠ k) :
    (pendingOf node n).filter (Pending.goesTo k) = [] := by
  refine List.filter_eq_nil_iff.mpr fun q hq hgoes => ?_
  obtain ⟨place, hplace, howner⟩ := goesTo_iff.mp hgoes
  obtain ⟨place', hplace', rfl⟩ := exists_place_of_mem_pendingOf hq
  obtain rfl := Option.some.inj (hplace.symm.trans hplace')
  exact hne howner

theorem GoBelow.not_goesTo (h : GoBelow n stack) (hp : p ∈ stack) (hk : n ≤ k) :
    ¬ p.goesTo k = true := by
  intro hgoes
  obtain ⟨place, hplace, rfl⟩ := goesTo_iff.mp hgoes
  exact Nat.not_lt.mpr hk (h p hp place hplace)

theorem GoBelow.filter_eq_nil (h : GoBelow n stack) (hk : n ≤ k) :
    stack.filter (Pending.goesTo k) = [] :=
  List.filter_eq_nil_iff.mpr fun _ hq => h.not_goesTo hq hk

/-- An older copy gets what was pending for it. -/
theorem Taken.filter_of_lt (h : Taken source n stack taken) (hk : k < n) :
    taken.filter (Pending.goesTo k) = stack.filter (Pending.goesTo k) := by
  induction h with
  | nil => rfl
  | @cons n p stack taken node _ _ ih =>
      have hrest := ih (Nat.lt_succ_of_lt hk)
      rw [List.filter_append, filter_pendingOf_of_ne node (Nat.ne_of_gt hk), List.nil_append]
        at hrest
      rw [List.filter_cons, List.filter_cons, hrest]

/-- A new copy gets what its node owns, in the same order. -/
theorem Taken.filter_goesTo (h : Taken source n stack taken) (hbelow : GoBelow n stack) {j : Nat}
    (hp : taken[j]? = some p) (hnode : source.get? p.id = some node) :
    taken.filter (Pending.goesTo (n + j)) = pendingOf node (n + j) := by
  induction h generalizing j with
  | nil => cases hp
  | @cons n q stack taken next hnext htaken ih =>
      rw [List.filter_cons_of_neg (hbelow.not_goesTo List.mem_cons_self (Nat.le_add_right n j))]
      match j with
      | 0 =>
          obtain rfl : q = p := Option.some.inj hp
          obtain rfl := Option.some.inj (hnext.symm.trans hnode)
          have hstack := GoBelow.filter_eq_nil (fun p hp => hbelow p (List.mem_cons_of_mem _ hp))
            (Nat.le_refl n)
          rw [Nat.add_zero, htaken.filter_of_lt (Nat.lt_succ_self n), List.filter_append, hstack,
            List.append_nil, filter_pendingOf_self]
      | j + 1 =>
          have hlater := ih hbelow.step hp
          rwa [Nat.add_assoc, Nat.add_comm 1 j] at hlater

/-- A copy goes to one that stands before it. -/
theorem Taken.owner_lt (h : Taken source n stack taken) (hbelow : GoBelow n stack) {j : Nat}
    (hp : taken[j]? = some p) : ∀ place ∈ p.place, place.owner < n + j := by
  induction h generalizing j with
  | nil => cases hp
  | @cons n q stack taken next hnext htaken ih =>
      match j with
      | 0 =>
          obtain rfl : q = p := Option.some.inj hp
          exact hbelow q List.mem_cons_self
      | j + 1 =>
          have hlater := ih hbelow.step hp
          rwa [Nat.add_assoc, Nat.add_comm 1 j] at hlater

/-- What goes nowhere was on the stack from the beginning. -/
theorem Taken.mem_stack (h : Taken source n stack taken) (hp : p ∈ taken) (hnone : p.place = none) :
    p ∈ stack := by
  induction h with
  | nil => exact hp
  | cons _ _ ih =>
      rcases List.mem_cons.mp hp with rfl | hp
      · exact List.mem_cons_self
      · rcases List.mem_append.mp (ih hp) with hp | hp
        · obtain ⟨place, hplace, _⟩ := exists_place_of_mem_pendingOf hp
          rw [hnone] at hplace
          cases hplace
        · exact List.mem_cons_of_mem _ hp

theorem Taken.exists_get? (h : Taken source n stack taken) (hp : p ∈ taken) :
    ∃ node, source.get? p.id = some node := by
  induction h with
  | nil => cases hp
  | cons hnode _ ih =>
      rcases List.mem_cons.mp hp with rfl | hp
      · exact ⟨_, hnode⟩
      · exact ih hp

/-- The node after the copy of a pending one was linked into it. -/
def Pending.link (copy : NodeId) (p : Pending) (node : Node) : Node :=
  match p.place with
  | some place => place.change copy node
  | none => node

/-- The `k`-th copy after others were made, the first of them being the `n`-th. -/
def linkAll (k : NodeId) : Nat → List Pending → Node → Node
  | _, [], node => node
  | n, p :: taken, node =>
      linkAll k (n + 1) taken (if p.goesTo k then p.link n node else node)

theorem get?_copyOne_goesTo (hk : k < copies.size) :
    (ofCopies source (copyOne settings node p.place copies)).get? k =
      ((ofCopies source copies).get? k).map fun old =>
        if p.goesTo k then p.link copies.size old else old := by
  rw [get?_copyOne_of_lt hk]
  obtain ⟨id, place?⟩ := p
  cases place? with
  | none => simp [Pending.goesTo]
  | some place => simp [Pending.goesTo, Pending.link]

theorem size_copyOne (place? : Option Attachment) :
    (copyOne settings node place? copies).size = copies.size + 1 := by
  cases place? <;> simp [copyOne, size_link]

theorem Taken.size_copyPending (h : Taken source copies.size stack taken)
    (hfuel : taken.length ≤ fuel) :
    (copyPending source settings fuel stack copies).size = copies.size + taken.length := by
  induction taken generalizing stack copies fuel with
  | nil =>
      cases h
      cases fuel <;> rfl
  | cons p taken ih =>
      cases h with
      | cons hnode hrest =>
          obtain ⟨fuel, rfl⟩ := Nat.exists_eq_add_of_le' (Nat.le_trans (Nat.succ_pos _) hfuel)
          rw [copyPending_cons hnode]
          rw [← size_copyOne p.place] at hrest
          rw [ih hrest (Nat.le_of_succ_le_succ hfuel), size_copyOne, List.length_cons]
          omega

/-- An older copy gets what goes to it. -/
theorem Taken.get?_copyPending_of_lt (h : Taken source copies.size stack taken)
    (hfuel : taken.length ≤ fuel) (hk : k < copies.size) :
    (ofCopies source (copyPending source settings fuel stack copies)).get? k =
      ((ofCopies source copies).get? k).map (linkAll k copies.size taken) := by
  induction taken generalizing stack copies fuel with
  | nil =>
      cases h
      have hid : linkAll k copies.size [] = id := rfl
      cases fuel <;> simp [copyPending, hid]
  | cons p taken ih =>
      cases h with
      | @cons _ _ stack _ node hnode hrest =>
          obtain ⟨fuel, rfl⟩ := Nat.exists_eq_add_of_le' (Nat.le_trans (Nat.succ_pos _) hfuel)
          have hsize : (copyOne settings node p.place copies).size = copies.size + 1 :=
            size_copyOne p.place
          rw [copyPending_cons hnode]
          rw [← hsize] at hrest
          rw [ih hrest (Nat.le_of_succ_le_succ hfuel) (by omega), get?_copyOne_goesTo hk,
            Option.map_map, hsize]
          rfl

/-- A new copy is made of its node, and gets what goes to it. -/
theorem Taken.get?_copyPending (h : Taken source copies.size stack taken)
    (hbelow : GoBelow copies.size stack) (hfuel : taken.length ≤ fuel) {j : Nat}
    (hp : taken[j]? = some p) (hnode : source.get? p.id = some node) :
    (ofCopies source (copyPending source settings fuel stack copies)).get? (copies.size + j) =
      some (linkAll (copies.size + j) copies.size taken (copyNode settings node p.place)) := by
  induction taken generalizing stack copies fuel j with
  | nil => cases hp
  | cons q taken ih =>
      cases h with
      | @cons _ _ stack _ next hnext hrest =>
          obtain ⟨fuel, rfl⟩ := Nat.exists_eq_add_of_le' (Nat.le_trans (Nat.succ_pos _) hfuel)
          have hsize : (copyOne settings next q.place copies).size = copies.size + 1 :=
            size_copyOne q.place
          have hfuel' : taken.length ≤ fuel := Nat.le_of_succ_le_succ hfuel
          rw [copyPending_cons hnext, linkAll,
            if_neg (hbelow.not_goesTo List.mem_cons_self (Nat.le_add_right _ j))]
          rw [← hsize] at hrest
          match j with
          | 0 =>
              obtain rfl : q = p := Option.some.inj hp
              obtain rfl := Option.some.inj (hnext.symm.trans hnode)
              have hself :
                  (ofCopies source (copyOne settings next q.place copies)).get? copies.size =
                    some (copyNode settings next q.place) :=
                get?_copyOne_self (hbelow q List.mem_cons_self)
              rw [Nat.add_zero, hrest.get?_copyPending_of_lt hfuel' (by omega), hself,
                Option.map_some, hsize]
          | j + 1 =>
              have hstack : GoBelow (copies.size + 1) (pendingOf next copies.size ++ stack) :=
                hbelow.step
              rw [← hsize] at hstack
              have hlater := ih hrest hstack hfuel' hp
              rwa [hsize, Nat.add_assoc, Nat.add_comm 1 j] at hlater

end Tree

end TaggedText
