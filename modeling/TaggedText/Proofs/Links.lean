import Mathlib.Data.List.Nodup
import Mathlib.Logic.Function.Basic
import TaggedText.Node

/-!
# Links between nodes

The links of a tree are two functions: `up` gives the owner that a node names, `down` the nodes
that a node owns. They form a forest when both say the same, when no owner has a node twice, and
when every way up comes to an end.

Two changes keep a forest a forest. A node may come to own nodes that have no owner and do not
stand above it, and it may give up a node. Whatever a tree, a copy of a tree or a document under
construction does to its links is one of the two. Nothing here is said about indices or numbers.
-/
namespace TaggedText.Links

variable {up : NodeId → Option NodeId} {down : NodeId → List NodeId} {a b id owner : NodeId}

/-- Going up from a node, the node itself included, `a` is met. -/
inductive Above (up : NodeId → Option NodeId) (a : NodeId) : NodeId → Prop
  | here : Above up a a
  | further {id owner : NodeId} : up id = some owner → Above up a owner → Above up a id

/-- Going up from a node ends at a node without an owner. -/
inductive Grounded (up : NodeId → Option NodeId) : NodeId → Prop
  | top {id : NodeId} : up id = none → Grounded up id
  | owned {id owner : NodeId} : up id = some owner → Grounded up owner → Grounded up id

structure Forest (up : NodeId → Option NodeId) (down : NodeId → List NodeId) : Prop where
  owner_iff : ∀ owner id, up id = some owner ↔ id ∈ down owner
  nodup : ∀ id, (down id).Nodup
  grounded : ∀ id, Grounded up id

theorem Above.trans (h : Above up a b) (k : Above up b id) : Above up a id := by
  induction k with
  | here => exact h
  | further hu _ ih => exact .further hu ih

/-- Whoever stands above another node owns a node on the way to it. -/
theorem Above.eq_or_owner (h : Above up a id) :
    id = a ∨ ∃ c, up c = some a ∧ Above up c id := by
  induction h with
  | here => exact .inl rfl
  | @further id owner hu _ ih =>
      rcases ih with rfl | ⟨c, hc, hbelow⟩
      · exact .inr ⟨id, hu, .here⟩
      · exact .inr ⟨c, hc, .further hu hbelow⟩

theorem Above.eq_of_top (h : Above up a id) (ht : up id = none) : id = a := by
  cases h with
  | here => rfl
  | further hu _ => rw [ht] at hu; cases hu

/-- A node does not stand above its own owner. -/
theorem Grounded.not_above_owner (h : Grounded up id) (hu : up id = some owner) :
    ¬ Above up id owner := by
  induction h generalizing owner with
  | top ht => rw [ht] at hu; cases hu
  | @owned id next hn _ ih =>
      obtain rfl : next = owner := Option.some.inj (hn.symm.trans hu)
      intro habove
      cases habove with
      | here => exact ih hn .here
      | further hnext hrest => exact ih hnext ((Above.further hn .here).trans hrest)

/-- The nodes met on the way up, up to one without an owner. -/
inductive Path (up : NodeId → Option NodeId) : NodeId → List NodeId → Prop
  | top {id : NodeId} : up id = none → Path up id [id]
  | owned {id owner : NodeId} {path : List NodeId} :
      up id = some owner → Path up owner path → Path up id (id :: path)

theorem Grounded.exists_path (h : Grounded up id) : ∃ path, Path up id path := by
  induction h with
  | top ht => exact ⟨_, .top ht⟩
  | owned hu _ ih =>
      obtain ⟨path, hpath⟩ := ih
      exact ⟨_, .owned hu hpath⟩

theorem Path.grounded {path : List NodeId} (h : Path up id path) : Grounded up id := by
  induction h with
  | top ht => exact .top ht
  | owned hu _ ih => exact .owned hu ih

theorem Path.mem_iff {path : List NodeId} (h : Path up id path) :
    a ∈ path ↔ Above up a id := by
  induction h with
  | @top id ht =>
      rw [List.mem_singleton]
      exact ⟨fun ha => ha ▸ .here, fun ha => (ha.eq_of_top ht).symm⟩
  | @owned id owner path hu _ ih =>
      rw [List.mem_cons, ih]
      constructor
      · rintro (rfl | ha)
        · exact .here
        · exact .further hu ha
      · intro ha
        cases ha with
        | here => exact .inl rfl
        | further hu' ha =>
            obtain rfl := Option.some.inj (hu.symm.trans hu')
            exact .inr ha

/-- No node is met twice on the way up. -/
theorem Path.nodup {path : List NodeId} (h : Path up id path) : path.Nodup := by
  induction h with
  | top _ => exact List.nodup_singleton _
  | owned hu hpath ih =>
      refine List.nodup_cons.mpr ⟨fun hin => ?_, ih⟩
      exact (Grounded.owned hu hpath.grounded).not_above_owner hu (hpath.mem_iff.mp hin)

/-- The links up after `owner` has come to own the given nodes. -/
def adopt (up : NodeId → Option NodeId) (owner : NodeId) (ids : List NodeId) :
    NodeId → Option NodeId :=
  fun id => if id ∈ ids then some owner else up id

/-- A way up that meets none of the adopted nodes is as it was. -/
theorem Grounded.adopt_of_apart {ids : List NodeId} (h : Grounded up id)
    (apart : ∀ a ∈ ids, ¬ Above up a id) : Grounded (adopt up owner ids) id := by
  induction h with
  | @top id ht =>
      have hid : id ∉ ids := fun hin => apart id hin .here
      exact .top (by simp only [adopt, hid, if_false, ht])
  | @owned id next hu _ ih =>
      have hid : id ∉ ids := fun hin => apart id hin .here
      have hn : adopt up owner ids id = some next := by simp only [adopt, hid, if_false, hu]
      exact .owned hn (ih fun a ha hnext => apart a ha (.further hu hnext))

theorem Grounded.adopt {ids : List NodeId} (h : Grounded up id) (ho : Grounded up owner)
    (apart : ∀ a ∈ ids, ¬ Above up a owner) : Grounded (adopt up owner ids) id := by
  have howner : Grounded (Links.adopt up owner ids) owner := ho.adopt_of_apart apart
  induction h with
  | @top id ht =>
      by_cases hid : id ∈ ids
      · exact .owned (by simp only [Links.adopt, hid, if_true]) howner
      · exact .top (by simp only [Links.adopt, hid, if_false, ht])
  | @owned id next hu _ ih =>
      by_cases hid : id ∈ ids
      · exact .owned (by simp only [Links.adopt, hid, if_true]) howner
      · exact .owned (by simp only [Links.adopt, hid, if_false, hu]) ih

/-- Nodes without an owner may come to be owned by a node that they do not stand above. The order
in which the owner then has its nodes does not matter. -/
theorem Forest.adopt {ids owned : List NodeId} (h : Forest up down) (distinct : ids.Nodup)
    (free : ∀ id ∈ ids, up id = none) (apart : ∀ a ∈ ids, ¬ Above up a owner)
    (perm : owned.Perm (ids ++ down owner)) :
    Forest (adopt up owner ids) (Function.update down owner owned) := by
  have unowned : ∀ id ∈ ids, ∀ p, id ∉ down p := by
    intro id hid p hin
    have hp := (h.owner_iff p id).mpr hin
    rw [free id hid] at hp
    cases hp
  refine ⟨fun p id => ?_, fun p => ?_, fun id => (h.grounded id).adopt (h.grounded owner) apart⟩
  · by_cases hp : p = owner
    · subst hp
      rw [Function.update_self, perm.mem_iff, List.mem_append, ← h.owner_iff]
      by_cases hid : id ∈ ids <;> simp [Links.adopt, hid]
    · rw [Function.update_of_ne hp, ← h.owner_iff]
      by_cases hid : id ∈ ids
      · simp [Links.adopt, hid, free id hid, Ne.symm hp]
      · simp [Links.adopt, hid]
  · by_cases hp : p = owner
    · subst hp
      rw [Function.update_self, perm.nodup_iff]
      exact List.nodup_append.mpr ⟨distinct, h.nodup p,
        fun x hx y hy hxy => unowned x hx p (hxy ▸ hy)⟩
    · rw [Function.update_of_ne hp]
      exact h.nodup p

theorem Grounded.release (h : Grounded up id) : Grounded (Function.update up a none) id := by
  induction h with
  | @top id ht =>
      by_cases hid : id = a
      · exact .top (by rw [hid, Function.update_self])
      · exact .top (by rw [Function.update_of_ne hid, ht])
  | @owned id next hu _ ih =>
      by_cases hid : id = a
      · exact .top (by rw [hid, Function.update_self])
      · exact .owned (by rw [Function.update_of_ne hid, hu]) ih

/-- An owner may give up one of its nodes. -/
theorem Forest.release {owned : List NodeId} (h : Forest up down)
    (perm : (a :: owned).Perm (down owner)) :
    Forest (Function.update up a none) (Function.update down owner owned) := by
  have hup : up a = some owner := (h.owner_iff owner a).mpr (perm.subset List.mem_cons_self)
  have hnodup : (a :: owned).Nodup := perm.nodup_iff.mpr (h.nodup owner)
  obtain ⟨ha, howned⟩ := List.nodup_cons.mp hnodup
  refine ⟨fun p id => ?_, fun p => ?_, fun id => (h.grounded id).release⟩
  · by_cases hid : id = a
    · subst hid
      rw [Function.update_self]
      refine ⟨fun hn => (Option.some_ne_none p hn.symm).elim, fun hin => ?_⟩
      by_cases hp : p = owner
      · subst hp
        rw [Function.update_self] at hin
        exact (ha hin).elim
      · rw [Function.update_of_ne hp, ← h.owner_iff, hup] at hin
        exact (hp (Option.some.inj hin).symm).elim
    · rw [Function.update_of_ne hid, h.owner_iff]
      by_cases hp : p = owner
      · subst hp
        rw [Function.update_self, ← perm.mem_iff, List.mem_cons]
        exact ⟨fun hin => hin.resolve_left hid, .inr⟩
      · rw [Function.update_of_ne hp]
  · by_cases hp : p = owner
    · subst hp
      rw [Function.update_self]
      exact howned
    · rw [Function.update_of_ne hp]
      exact h.nodup p

end TaggedText.Links
