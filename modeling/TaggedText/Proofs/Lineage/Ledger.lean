import Mathlib.Logic.Function.Basic
import TaggedText.Node

/-!
# Numbers in a family of trees

A ledger says of a family of trees which number each node bears, which number each tree gives next,
and which of the nodes that were made each node comes from. Making a node uses up the next number of
its tree. A copy takes over the numbers and origins of the nodes copied, and goes on with the next
number of their tree, so that from then on two trees give the same numbers.

A number is unique if the nodes that bear it have one origin. A step keeps all numbers unique exactly
if it makes no node, or makes it in a tree that no other tree is ahead of.
-/
namespace TaggedText

/-- The position of a tree, and a node in it. -/
abbrev Address := Nat × NodeId

@[ext] structure Ledger where
  /-- The number of a node. -/
  serial? : Address → Option Nat
  /-- The number that a tree gives next. -/
  counter? : Nat → Option Nat
  /-- The node that was made, not copied, and that a node comes from. -/
  origin? : Address → Option Address

namespace Ledger

/-- A node is made with the next number of its tree. -/
def make (ledger : Ledger) (made : Address) (n : Nat) : Ledger where
  serial? := Function.update ledger.serial? made (some n)
  counter? := Function.update ledger.counter? made.1 (some (n + 1))
  origin? := Function.update ledger.origin? made (some made)

/-- A tree is added that consists of copies of the nodes `order` of another tree. -/
def copy (ledger : Ledger) (source target n : Nat) (order : List NodeId) : Ledger where
  serial? a :=
    if a.1 = target then order[a.2]?.bind fun id => ledger.serial? (source, id)
    else ledger.serial? a
  counter? := Function.update ledger.counter? target (some n)
  origin? a :=
    if a.1 = target then order[a.2]?.bind fun id => ledger.origin? (source, id)
    else ledger.origin? a

/-- What may happen to a ledger, and the number that is given to a new node. -/
inductive Step (ledger : Ledger) : Option Nat → Ledger → Prop
  | kept : Step ledger none ledger
  | made {made : Address} {n : Nat} : ledger.counter? made.1 = some n →
      ledger.serial? made = none → Step ledger (some n) (ledger.make made n)
  | copied {source target n : Nat} (order : List NodeId) : ledger.counter? source = some n →
      ledger.counter? target = none → Step ledger none (ledger.copy source target n order)

/-- What holds of every ledger that steps lead to. -/
structure Sound (ledger : Ledger) : Prop where
  /-- A copy bears the number of the node that it comes from. -/
  exists_origin : ∀ a n, ledger.serial? a = some n →
    ∃ origin, ledger.origin? a = some origin ∧ ledger.serial? origin = some n
  lt_counter : ∀ a n, ledger.serial? a = some n → ∃ c, ledger.counter? a.1 = some c ∧ n < c
  /-- Every number that was given is still borne by a node. -/
  exists_serial : ∀ i c n, ledger.counter? i = some c → n < c → ∃ a, ledger.serial? a = some n

/-- Nodes that come from one node. -/
def Kin (ledger : Ledger) (a b : Address) : Prop :=
  ∃ origin, ledger.origin? a = some origin ∧ ledger.origin? b = some origin

/-- Only nodes of one origin bear the same number. -/
def Unique (ledger : Ledger) : Prop :=
  ∀ a b n, ledger.serial? a = some n → ledger.serial? b = some n → ledger.Kin a b

/-- No tree is ahead of the number. -/
def Abreast (ledger : Ledger) (n : Nat) : Prop :=
  ∀ i c, ledger.counter? i = some c → c ≤ n

variable {ledger later : Ledger} {a b made : Address} {n m source target : Nat} {given : Option Nat}
  {order : List NodeId}

theorem serial?_make_of_ne (h : a ≠ made) : (ledger.make made n).serial? a = ledger.serial? a :=
  Function.update_of_ne h ..

theorem origin?_make_of_ne (h : a ≠ made) : (ledger.make made n).origin? a = ledger.origin? a :=
  Function.update_of_ne h ..

theorem serial?_make_self : (ledger.make made n).serial? made = some n :=
  Function.update_self ..

theorem origin?_make_self : (ledger.make made n).origin? made = some made :=
  Function.update_self ..

/-- A node keeps its number and its origin. -/
theorem Step.serial?_eq (hstep : ledger.Step given later) (h : ledger.Sound)
    (ha : ledger.serial? a = some n) :
    later.serial? a = some n ∧ later.origin? a = ledger.origin? a := by
  cases hstep with
  | kept => exact ⟨ha, rfl⟩
  | @made made m _ hnew =>
      have hne : a ≠ made := by
        rintro rfl
        rw [hnew] at ha
        cases ha
      rw [serial?_make_of_ne hne, origin?_make_of_ne hne]
      exact ⟨ha, rfl⟩
  | @copied source target m order _ hnone =>
      have hne : a.1 ≠ target := by
        intro heq
        obtain ⟨c, hc, _⟩ := h.lt_counter a n ha
        rw [heq, hnone] at hc
        cases hc
      simp only [copy, if_neg hne]
      exact ⟨ha, trivial⟩

/-- A node of a ledger after a copy has the number and the origin of a node before it. -/
theorem exists_of_serial?_copy (ha : (ledger.copy source target m order).serial? a = some n) :
    ∃ b, ledger.serial? b = some n ∧
      (ledger.copy source target m order).origin? a = ledger.origin? b := by
  by_cases htarget : a.1 = target
  · simp only [copy, if_pos htarget] at ha ⊢
    cases hid : order[a.2]? with
    | none =>
        rw [hid] at ha
        cases ha
    | some id =>
        rw [hid] at ha
        exact ⟨(source, id), ha, rfl⟩
  · simp only [copy, if_neg htarget] at ha ⊢
    exact ⟨a, ha, rfl⟩

theorem Sound.make (h : ledger.Sound) (hcounter : ledger.counter? made.1 = some n)
    (hnew : ledger.serial? made = none) : (ledger.make made n).Sound := by
  have hstep := Step.made hcounter hnew
  constructor
  · intro a m ha
    by_cases hmade : a = made
    · subst hmade
      exact ⟨a, origin?_make_self, ha⟩
    · rw [serial?_make_of_ne hmade] at ha
      obtain ⟨origin, horigin, hserial⟩ := h.exists_origin a m ha
      rw [origin?_make_of_ne hmade]
      exact ⟨origin, horigin, (hstep.serial?_eq h hserial).1⟩
  · intro a m ha
    by_cases hmade : a = made
    · subst hmade
      rw [serial?_make_self] at ha
      cases ha
      exact ⟨n + 1, Function.update_self .., Nat.lt_succ_self n⟩
    · rw [serial?_make_of_ne hmade] at ha
      obtain ⟨c, hc, hlt⟩ := h.lt_counter a m ha
      by_cases htree : a.1 = made.1
      · rw [htree, hcounter] at hc
        cases hc
        rw [htree]
        exact ⟨n + 1, Function.update_self .., Nat.lt_succ_of_lt hlt⟩
      · exact ⟨c, (Function.update_of_ne htree ..).trans hc, hlt⟩
  · intro i c m hc hlt
    have hold : (∃ a, ledger.serial? a = some m) → ∃ a, (ledger.make made n).serial? a = some m := by
      rintro ⟨a, ha⟩
      exact ⟨a, (hstep.serial?_eq h ha).1⟩
    by_cases htree : i = made.1
    · subst htree
      cases (Function.update_self made.1 _ ledger.counter?).symm.trans hc
      by_cases hlast : m = n
      · exact ⟨made, hlast ▸ serial?_make_self⟩
      · exact hold (h.exists_serial made.1 n m hcounter (by omega))
    · exact hold (h.exists_serial i c m ((Function.update_of_ne htree ..).symm.trans hc) hlt)

theorem Sound.copy (h : ledger.Sound) (hcounter : ledger.counter? source = some m)
    (hnone : ledger.counter? target = none) : (ledger.copy source target m order).Sound := by
  have hstep := Step.copied order hcounter hnone
  constructor
  · intro a n ha
    obtain ⟨b, hb, hsame⟩ := exists_of_serial?_copy ha
    obtain ⟨origin, horigin, hserial⟩ := h.exists_origin b n hb
    rw [hsame]
    exact ⟨origin, horigin, (hstep.serial?_eq h hserial).1⟩
  · intro a n ha
    by_cases htarget : a.1 = target
    · simp only [Ledger.copy, if_pos htarget] at ha
      obtain ⟨id, _, hid⟩ := Option.bind_eq_some_iff.mp ha
      obtain ⟨c, hc, hlt⟩ := h.lt_counter (source, id) n hid
      cases hcounter.symm.trans hc
      rw [htarget]
      exact ⟨m, Function.update_self .., hlt⟩
    · simp only [Ledger.copy, if_neg htarget] at ha
      obtain ⟨c, hc, hlt⟩ := h.lt_counter a n ha
      exact ⟨c, (Function.update_of_ne htarget ..).trans hc, hlt⟩
  · intro i c n hc hlt
    have hold : ∃ a, ledger.serial? a = some n := by
      by_cases htarget : i = target
      · subst htarget
        cases (Function.update_self i _ ledger.counter?).symm.trans hc
        exact h.exists_serial source m n hcounter hlt
      · exact h.exists_serial i c n ((Function.update_of_ne htarget ..).symm.trans hc) hlt
    obtain ⟨a, ha⟩ := hold
    exact ⟨a, (hstep.serial?_eq h ha).1⟩

theorem Sound.step (h : ledger.Sound) (hstep : ledger.Step given later) : later.Sound := by
  cases hstep with
  | kept => exact h
  | made hcounter hnew => exact h.make hcounter hnew
  | copied order hcounter hnone => exact h.copy hcounter hnone

/-- Numbers that are unique after a step were unique before. -/
theorem Sound.unique_of_step (h : ledger.Sound) (hstep : ledger.Step given later)
    (hunique : later.Unique) : ledger.Unique := by
  intro a b n ha hb
  obtain ⟨hlaterA, horiginA⟩ := hstep.serial?_eq h ha
  obtain ⟨hlaterB, horiginB⟩ := hstep.serial?_eq h hb
  have hkin := hunique a b n hlaterA hlaterB
  rwa [Kin, horiginA, horiginB] at hkin

/-- A number that another tree has given before is borne by a node of another origin. -/
theorem Sound.abreast_of_unique_make (h : ledger.Sound) (hcounter : ledger.counter? made.1 = some n)
    (hnew : ledger.serial? made = none) (hunique : (ledger.make made n).Unique) :
    ledger.Abreast n := by
  intro i c hc
  by_contra hahead
  obtain ⟨b, hb⟩ := h.exists_serial i c n hc (by omega)
  obtain ⟨hlater, horigin⟩ := (Step.made hcounter hnew).serial?_eq h hb
  obtain ⟨origin, hmade, hother⟩ := hunique made b n serial?_make_self hlater
  rw [origin?_make_self] at hmade
  cases hmade
  -- The origin of an older node was there before the new node.
  obtain ⟨first, hfirst, hserial⟩ := h.exists_origin b n hb
  rw [horigin, hfirst] at hother
  cases hother
  rw [hnew] at hserial
  cases hserial

theorem Sound.ne_serial? (h : ledger.Sound) (habreast : ledger.Abreast n) (a : Address) :
    ledger.serial? a ≠ some n := by
  intro ha
  obtain ⟨c, hc, hlt⟩ := h.lt_counter a n ha
  have hle := habreast a.1 c hc
  omega

theorem Sound.unique_make (h : ledger.Sound) (habreast : ledger.Abreast n)
    (hunique : ledger.Unique) : (ledger.make made n).Unique := by
  have hnew : ∀ a m, a ≠ made → (ledger.make made n).serial? a = some m → m ≠ n := by
    rintro a m hne ha rfl
    rw [serial?_make_of_ne hne] at ha
    exact h.ne_serial? habreast a ha
  intro a b m ha hb
  by_cases hmadeA : a = made
  · by_cases hmadeB : b = made
    · rw [hmadeA, hmadeB]
      exact ⟨made, origin?_make_self, origin?_make_self⟩
    · subst hmadeA
      rw [serial?_make_self] at ha
      cases ha
      exact absurd rfl (hnew b n hmadeB hb)
  · by_cases hmadeB : b = made
    · subst hmadeB
      rw [serial?_make_self] at hb
      cases hb
      exact absurd rfl (hnew a n hmadeA ha)
    · rw [serial?_make_of_ne hmadeA] at ha
      rw [serial?_make_of_ne hmadeB] at hb
      rw [Kin, origin?_make_of_ne hmadeA, origin?_make_of_ne hmadeB]
      exact hunique a b m ha hb

theorem unique_copy (hunique : ledger.Unique) : (ledger.copy source target m order).Unique := by
  intro a b n ha hb
  obtain ⟨a', ha', horiginA⟩ := exists_of_serial?_copy ha
  obtain ⟨b', hb', horiginB⟩ := exists_of_serial?_copy hb
  rw [Kin, horiginA, horiginB]
  exact hunique a' b' n ha' hb'

/-- A step keeps the numbers unique exactly if no tree is ahead of the number that it gives. -/
theorem Sound.unique_step_iff (h : ledger.Sound) (hstep : ledger.Step given later) :
    later.Unique ↔ ledger.Unique ∧ ∀ n ∈ given, ledger.Abreast n := by
  constructor
  · intro hunique
    constructor
    · exact h.unique_of_step hstep hunique
    · intro n hn
      cases hstep with
      | kept => cases hn
      | made hcounter hnew =>
          cases hn
          exact h.abreast_of_unique_make hcounter hnew hunique
      | copied => cases hn
  · rintro ⟨hunique, habreast⟩
    cases hstep with
    | kept => exact hunique
    | made => exact h.unique_make (habreast _ rfl) hunique
    | copied => exact unique_copy hunique

end Ledger
end TaggedText
