import Mathlib.Data.List.Nodup
import Mathlib.Logic.Function.Basic
import TaggedText.Node

/-!
# Document order

The nodes that are met from some nodes on downwards, each before what it owns and that before the
next one. The order follows the links down alone, and a stack that has on top what the last node
owns meets the nodes in this order.

The right edge of a tree goes from its root to the last node owned, to the last node owned by that
one, and so on. What is added at its end comes last in document order.
-/
namespace TaggedText.Links

variable {down down' : NodeId → List NodeId} {a b id n : NodeId}
variable {ids others order order' : List NodeId}

/-- The nodes `ids` and all below them in document order. -/
inductive Preorder (down : NodeId → List NodeId) : List NodeId → List NodeId → Prop
  | nil : Preorder down [] []
  | cons {id : NodeId} {ids below rest : List NodeId} : Preorder down (down id) below →
      Preorder down ids rest → Preorder down (id :: ids) (id :: (below ++ rest))

namespace Preorder

theorem append (h : Preorder down ids order) (k : Preorder down others order') :
    Preorder down (ids ++ others) (order ++ order') := by
  induction h with
  | nil => exact k
  | cons hbelow _ _ ih =>
      rw [List.cons_append, List.cons_append, List.append_assoc]
      exact .cons hbelow ih

theorem exists_append (h : Preorder down (ids ++ others) order) :
    ∃ first last, order = first ++ last ∧ Preorder down ids first ∧ Preorder down others last := by
  induction ids generalizing order with
  | nil => exact ⟨[], order, rfl, .nil, h⟩
  | cons id ids ih =>
      cases h with
      | cons hbelow hrest =>
          obtain ⟨first, last, rfl, hfirst, hlast⟩ := ih hrest
          exact ⟨_, last, by simp, .cons hbelow hfirst, hlast⟩

/-- The first node is followed by what it owns and by the other nodes. -/
theorem cons_iff : Preorder down (id :: ids) order ↔
    ∃ rest, order = id :: rest ∧ Preorder down (down id ++ ids) rest := by
  constructor
  · intro h
    cases h with
    | cons hbelow hrest => exact ⟨_, rfl, hbelow.append hrest⟩
  · rintro ⟨rest, rfl, h⟩
    obtain ⟨first, last, rfl, hfirst, hlast⟩ := h.exists_append
    exact .cons hfirst hlast

theorem singleton_iff : Preorder down [id] order ↔
    ∃ rest, order = id :: rest ∧ Preorder down (down id) rest := by
  rw [cons_iff, List.append_nil]

theorem mem_of_mem (h : Preorder down ids order) (hid : id ∈ ids) : id ∈ order := by
  induction h with
  | nil => exact hid
  | cons _ _ _ ih =>
      rcases List.mem_cons.mp hid with rfl | hid
      · exact List.mem_cons_self
      · exact List.mem_cons_of_mem _ (List.mem_append_right _ (ih hid))

/-- With a node, what it owns is met. -/
theorem mem_of_mem_down (h : Preorder down ids order) (ha : a ∈ order) (hb : b ∈ down a) :
    b ∈ order := by
  induction h with
  | nil => exact absurd ha List.not_mem_nil
  | cons hbelow _ ihbelow ihrest =>
      refine List.mem_cons_of_mem _ ?_
      rcases List.mem_cons.mp ha with rfl | ha
      · exact List.mem_append_left _ (hbelow.mem_of_mem hb)
      · rcases List.mem_append.mp ha with ha | ha
        · exact List.mem_append_left _ (ihbelow ha)
        · exact List.mem_append_right _ (ihrest ha)

/-- Whatever is met below the first nodes is owned by a node that is met. -/
theorem mem_or_exists_owner (h : Preorder down ids order) (hb : b ∈ order) :
    b ∈ ids ∨ ∃ a ∈ order, b ∈ down a := by
  induction h with
  | nil => exact absurd hb List.not_mem_nil
  | @cons id ids below rest _ _ ihbelow ihrest =>
      rcases List.mem_cons.mp hb with rfl | hb
      · exact .inl List.mem_cons_self
      · rcases List.mem_append.mp hb with hb | hb
        · rcases ihbelow hb with hb | ⟨a, ha, hb⟩
          · exact .inr ⟨id, List.mem_cons_self, hb⟩
          · exact .inr ⟨a, List.mem_cons_of_mem _ (List.mem_append_left _ ha), hb⟩
        · rcases ihrest hb with hb | ⟨a, ha, hb⟩
          · exact .inl (List.mem_cons_of_mem _ hb)
          · exact .inr ⟨a, List.mem_cons_of_mem _ (List.mem_append_right _ ha), hb⟩

/-- The order of a copy is the copy of the order. -/
theorem map {f : NodeId → NodeId} (h : Preorder down ids order)
    (hf : ∀ id ∈ order, down' (f id) = (down id).map f) :
    Preorder down' (ids.map f) (order.map f) := by
  induction h with
  | nil => exact .nil
  | @cons id ids below rest _ _ ihbelow ihrest =>
      have hself := hf id List.mem_cons_self
      have hbelow := ihbelow fun c hc => hf c (List.mem_cons_of_mem _ (List.mem_append_left _ hc))
      have hrest := ihrest fun c hc => hf c (List.mem_cons_of_mem _ (List.mem_append_right _ hc))
      rw [← hself] at hbelow
      rw [List.map_cons, List.map_cons, List.map_append]
      exact .cons hbelow hrest

/-- The order depends on the links of the nodes that are met. -/
theorem congr (h : Preorder down ids order) (hdown : ∀ id ∈ order, down' id = down id) :
    Preorder down' ids order := by
  have hmap : Preorder down' (ids.map fun c => c) (order.map fun c => c) :=
    h.map fun c hc => by rw [List.map_id', hdown c hc]
  rwa [List.map_id', List.map_id'] at hmap

end Preorder

/-- The last of the nodes `ids`, the last node that it owns, and so on. -/
inductive RightEdge (down : NodeId → List NodeId) : List NodeId → NodeId → Prop
  | last {ids : List NodeId} {a : NodeId} : RightEdge down (ids ++ [a]) a
  | deeper {ids : List NodeId} {a b : NodeId} : RightEdge down (down b) a →
      RightEdge down (ids ++ [b]) a

namespace RightEdge

theorem mem_order (h : RightEdge down ids a) (ho : Preorder down ids order) : a ∈ order := by
  induction h generalizing order with
  | last => exact ho.mem_of_mem (List.mem_append_right _ List.mem_cons_self)
  | deeper _ ih =>
      obtain ⟨first, last, rfl, _, hlast⟩ := ho.exists_append
      obtain ⟨below, rfl, hbelow⟩ := Preorder.singleton_iff.mp hlast
      exact List.mem_append_right _ (List.mem_cons_of_mem _ (ih hbelow))

/-- The edge goes on to the last node owned. -/
theorem further (h : RightEdge down ids b) (ha : (down b).getLast? = some a) :
    RightEdge down ids a := by
  induction h with
  | last =>
      obtain ⟨front, hfront⟩ := List.getLast?_eq_some_iff.mp ha
      refine .deeper ?_
      rw [hfront]
      exact .last
  | deeper _ ih => exact .deeper (ih ha)

end RightEdge

/-- The way down the right edge from `root`, the last node first. -/
inductive Spine (down : NodeId → List NodeId) (root : NodeId) : List NodeId → Prop
  | root : Spine down root [root]
  | deeper {inner outer : NodeId} {above : List NodeId} : Spine down root (outer :: above) →
      (down outer).getLast? = some inner → inner ∉ outer :: above →
      Spine down root (inner :: outer :: above)

namespace Spine

variable {root : NodeId} {above : List NodeId}

theorem nodup (h : Spine down root ids) : ids.Nodup := by
  induction h with
  | root => exact List.nodup_singleton _
  | deeper _ _ hnew ih => exact List.nodup_cons.mpr ⟨hnew, ih⟩

theorem rightEdge (h : Spine down root ids) (ha : a ∈ ids) : RightEdge down [root] a := by
  have first : ∀ {ids a above}, Spine down root ids → ids = a :: above →
      RightEdge down [root] a := by
    intro ids a above h
    induction h generalizing a above with
    | root =>
        rintro ⟨⟩
        exact @RightEdge.last down [] root
    | deeper _ hlast _ ih =>
        rintro ⟨⟩
        exact (ih rfl).further hlast
  induction h with
  | root => exact List.mem_singleton.mp ha ▸ first .root rfl
  | deeper habove hlast hnew ih =>
      rcases List.mem_cons.mp ha with rfl | ha
      · exact first (.deeper habove hlast hnew) rfl
      · exact ih ha

theorem tail (h : Spine down root (a :: ids)) (hne : ids ≠ []) : Spine down root ids := by
  cases h with
  | root => exact absurd rfl hne
  | deeper habove _ _ => exact habove

/-- What the last node owns does not matter. -/
theorem congr (h : Spine down root (a :: above)) (hdown : ∀ id ∈ above, down' id = down id) :
    Spine down' root (a :: above) := by
  induction above generalizing a with
  | nil =>
      cases h with
      | root => exact .root
  | cons b above ih =>
      cases h with
      | deeper habove hlast hnew =>
          have hrest := ih habove fun id hid => hdown id (List.mem_cons_of_mem _ hid)
          refine .deeper hrest ?_ hnew
          rw [hdown b List.mem_cons_self, hlast]

end Spine

/-- What is added at the end of the right edge comes last. -/
theorem Preorder.snoc (h : Preorder down ids order) (hnodup : order.Nodup)
    (hedge : RightEdge down ids a) (hn : n ∉ order) (hleaf : down n = []) :
    Preorder (Function.update down a (down a ++ [n])) ids (order ++ [n]) := by
  have hne : n ≠ a := fun heq => hn (heq ▸ hedge.mem_order h)
  have apart : ∀ {ids order : List NodeId}, Preorder down ids order → a ∉ order →
      Preorder (Function.update down a (down a ++ [n])) ids order := by
    intro ids order ho hout
    refine ho.congr fun id hid => Function.update_of_ne ?_ _ _
    exact fun heq => hout (heq ▸ hid)
  induction hedge generalizing order with
  | @last ids a =>
      obtain ⟨first, last, rfl, hfirst, hlast⟩ := h.exists_append
      obtain ⟨below, rfl, hbelow⟩ := Preorder.singleton_iff.mp hlast
      obtain ⟨-, hlastNodup, hdisjoint⟩ := List.nodup_append.mp hnodup
      have hfirst_out : a ∉ first := fun hin => hdisjoint a hin a List.mem_cons_self rfl
      have hbelow_out : a ∉ below := (List.nodup_cons.mp hlastNodup).1
      have hleaf' : Function.update down a (down a ++ [n]) n = [] := by
        rw [Function.update_of_ne hne, hleaf]
      have hnew : Preorder (Function.update down a (down a ++ [n])) [n] [n] :=
        Preorder.singleton_iff.mpr ⟨[], rfl, by rw [hleaf']; exact .nil⟩
      have hself : Preorder (Function.update down a (down a ++ [n])) [a] (a :: (below ++ [n])) := by
        refine Preorder.singleton_iff.mpr ⟨_, rfl, ?_⟩
        rw [Function.update_self]
        exact (apart hbelow hbelow_out).append hnew
      rw [List.append_assoc, List.cons_append]
      exact (apart hfirst hfirst_out).append hself
  | @deeper ids a b hedge ih =>
      obtain ⟨first, last, rfl, hfirst, hlast⟩ := h.exists_append
      obtain ⟨below, rfl, hbelow⟩ := Preorder.singleton_iff.mp hlast
      obtain ⟨-, hlastNodup, hdisjoint⟩ := List.nodup_append.mp hnodup
      obtain ⟨hb, hbelowNodup⟩ := List.nodup_cons.mp hlastNodup
      have ha : a ∈ below := hedge.mem_order hbelow
      have hfirst_out : a ∉ first := fun hin =>
        hdisjoint a hin a (List.mem_cons_of_mem _ ha) rfl
      have hab : b ≠ a := fun heq => hb (heq ▸ ha)
      have hn_below : n ∉ below := fun hin =>
        hn (List.mem_append_right _ (List.mem_cons_of_mem _ hin))
      have hdeep := ih hbelow hbelowNodup hn_below hne apart
      have hself : Preorder (Function.update down a (down a ++ [n])) [b] (b :: (below ++ [n])) := by
        refine Preorder.singleton_iff.mpr ⟨_, rfl, ?_⟩
        rw [Function.update_of_ne hab]
        exact hdeep
      rw [List.append_assoc, List.cons_append]
      exact (apart hfirst hfirst_out).append hself

end TaggedText.Links
