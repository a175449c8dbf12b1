import Mathlib.Data.List.Perm.Subperm
import TaggedText.Entries

/-!
# Lookups in dictionaries

What is found in a dictionary is one of its entries, and where no key occurs twice each entry is
found. So the order of entries does not matter to lookups.

Two dictionaries of the same length in which no key occurs twice have the same keys if each key of
the one is in the other. This is why they can be compared by looking up the entries of one of them
only.
-/
namespace TaggedText

variable {α ι : Type} {R S T : α → α → Prop}

/-- Two families have the same places, and at each of them related values. -/
def Pointwise (R : α → α → Prop) (f g : ι → Option α) : Prop :=
  ∀ i, Option.Rel R (f i) (g i)

namespace Pointwise

variable {f g h : ι → Option α}

theorem isSome_eq (hfg : Pointwise R f g) (i : ι) : (f i).isSome = (g i).isSome := by
  have hat := hfg i
  cases hf : f i <;> cases hg : g i <;> simp_all

theorem swap (hfg : Pointwise R f g)
    (himp : ∀ i, ∀ x ∈ f i, ∀ y ∈ g i, R x y → S y x) : Pointwise S g f := by
  intro i
  have hat := hfg i
  have hinto := himp i
  cases hf : f i <;> cases hg : g i <;> simp_all

theorem trans (hfg : Pointwise R f g) (hgh : Pointwise S g h)
    (himp : ∀ i, ∀ x ∈ f i, ∀ y ∈ g i, ∀ z ∈ h i, R x y → S y z → T x z) :
    Pointwise T f h := by
  intro i
  have hfirst := hfg i
  have hsecond := hgh i
  have hinto := himp i
  cases hf : f i <;> cases hg : g i <;> cases hh : h i <;> simp_all

theorem self_iff : Pointwise R f f ↔ ∀ i, ∀ x ∈ f i, R x x := by
  refine forall_congr' fun i => ?_
  cases f i <;> simp

end Pointwise

namespace Entries

variable {entries others : Entries α} {key other : String} {value old : α}

theorem mem_of_get? (h : entries.get? key = some value) : (key, value) ∈ entries := by
  induction entries with
  | nil => cases h
  | cons entry entries ih =>
      rw [get?] at h
      split at h
      next heq =>
        cases h
        simp [← heq]
      next => exact List.mem_cons_of_mem _ (ih h)

theorem mem_values_of_get? (h : entries.get? key = some value) :
    value ∈ entries.map Prod.snd :=
  List.mem_map_of_mem (mem_of_get? h)

theorem get?_of_mem (hdistinct : entries.Distinct) (h : (key, value) ∈ entries) :
    entries.get? key = some value := by
  induction entries with
  | nil => cases h
  | cons entry entries ih =>
      obtain ⟨hnew, hdistinct⟩ := List.nodup_cons.mp hdistinct
      rw [get?]
      rcases List.mem_cons.mp h with rfl | h
      · exact if_pos rfl
      · have hne : entry.1 ≠ key := by
          rintro rfl
          exact hnew (List.mem_map.mpr ⟨_, h, rfl⟩)
        rw [if_neg hne]
        exact ih hdistinct h

theorem get?_eq_some_iff (h : entries.Distinct) :
    entries.get? key = some value ↔ (key, value) ∈ entries :=
  ⟨mem_of_get?, get?_of_mem h⟩

theorem mem_keys_iff : key ∈ entries.keys ↔ (entries.get? key).isSome := by
  induction entries with
  | nil => simp [keys, get?]
  | cons entry entries ih =>
      simp only [keys] at ih
      by_cases heq : entry.1 = key
      · simp [keys, get?, heq]
      · simp [keys, get?, heq, Ne.symm heq, ih]

theorem distinct_of_perm (hdistinct : entries.Distinct) (h : entries.Perm others) :
    others.Distinct :=
  (h.map Prod.fst).nodup_iff.mp hdistinct

/-- The order of entries does not matter to a lookup. -/
theorem get?_of_perm (hdistinct : entries.Distinct) (h : entries.Perm others) :
    (fun key => entries.get? key) = fun key => others.get? key := by
  ext key value
  rw [get?_eq_some_iff hdistinct, get?_eq_some_iff (distinct_of_perm hdistinct h), h.mem_iff]

theorem pointwise_swap
    (h : Pointwise R (fun key => entries.get? key) (fun key => others.get? key))
    (himp : ∀ x ∈ entries.map Prod.snd, ∀ y ∈ others.map Prod.snd, R x y → S y x) :
    Pointwise S (fun key => others.get? key) (fun key => entries.get? key) :=
  h.swap fun _ x hx y hy => himp x (mem_values_of_get? hx) y (mem_values_of_get? hy)

theorem pointwise_trans {more : Entries α}
    (h : Pointwise R (fun key => entries.get? key) (fun key => others.get? key))
    (h' : Pointwise S (fun key => others.get? key) (fun key => more.get? key))
    (himp : ∀ x ∈ entries.map Prod.snd, ∀ y ∈ others.map Prod.snd, ∀ z ∈ more.map Prod.snd,
      R x y → S y z → T x z) :
    Pointwise T (fun key => entries.get? key) (fun key => more.get? key) :=
  h.trans h' fun _ x hx y hy z hz =>
    himp x (mem_values_of_get? hx) y (mem_values_of_get? hy) z (mem_values_of_get? hz)

theorem pointwise_self_iff (hdistinct : entries.Distinct) :
    Pointwise R (fun key => entries.get? key) (fun key => entries.get? key) ↔
      ∀ x ∈ entries.map Prod.snd, R x x := by
  rw [Pointwise.self_iff, List.forall_mem_map]
  constructor
  · intro h entry hentry
    exact h entry.1 entry.2 (get?_of_mem hdistinct hentry)
  · intro h key x hx
    exact h _ (mem_of_get? hx)

/-- Replacing a value takes the old one out and puts the new one in. -/
theorem perm_values_insert (h : get? key entries = some old) :
    (old :: (insert key value entries).map Prod.snd).Perm (value :: entries.map Prod.snd) := by
  induction entries with
  | nil => cases h
  | cons entry rest ih =>
      obtain ⟨k, v⟩ := entry
      by_cases hk : k = key
      · obtain rfl : v = old := by simpa only [get?, hk, if_true, Option.some.injEq] using h
        simp only [insert, hk, if_true, List.map_cons]
        exact List.Perm.swap value v _
      · have hrest : get? key rest = some old := by simpa only [get?, hk, if_false] using h
        simp only [insert, hk, if_false, List.map_cons]
        exact ((List.Perm.swap v old _).trans ((ih hrest).cons v)).trans (List.Perm.swap value v _)

theorem values_insert_of_get?_eq_none (h : get? key entries = none) :
    (insert key value entries).map Prod.snd = entries.map Prod.snd ++ [value] := by
  induction entries with
  | nil => rfl
  | cons entry rest ih =>
      obtain ⟨k, v⟩ := entry
      by_cases hk : k = key
      · simp [get?, hk] at h
      · have hrest : get? key rest = none := by simpa only [get?, hk, if_false] using h
        simp only [insert, hk, if_false, List.map_cons, ih hrest, List.cons_append]

theorem mem_of_mem_insert {entry : String × α} (h : entry ∈ insert key value entries) :
    entry = (key, value) ∨ entry ∈ entries := by
  induction entries with
  | nil => exact .inl (List.mem_singleton.mp h)
  | cons first entries ih =>
      obtain ⟨k, v⟩ := first
      rw [insert] at h
      by_cases hk : k = key
      · rw [if_pos hk] at h
        rcases List.mem_cons.mp h with h | h
        · exact .inl h
        · exact .inr (List.mem_cons_of_mem _ h)
      · rw [if_neg hk] at h
        rcases List.mem_cons.mp h with h | h
        · exact .inr (List.mem_cons.mpr (.inl h))
        · cases ih h with
          | inl hnew => exact .inl hnew
          | inr hold => exact .inr (List.mem_cons_of_mem _ hold)

theorem mem_of_mem_keys_insert (h : other ∈ keys (insert key value entries)) :
    other = key ∨ other ∈ keys entries := by
  simp only [keys_insert] at h
  split at h
  next => exact .inr h
  next => simpa [or_comm] using h

/-- Where each key of one dictionary is in the other and both have the same length, both have the
same keys. -/
theorem perm_keys_of_subset (hdistinct : entries.Distinct)
    (hlength : entries.length = others.length) (h : entries.keys ⊆ others.keys) :
    entries.keys.Perm others.keys := by
  have hcount : others.keys.length ≤ entries.keys.length := by simp [keys, hlength]
  exact (List.subperm_of_subset hdistinct h).perm_of_length_le hcount

theorem length_eq_of_pointwise (hdistinct : entries.Distinct) (hdistinct' : others.Distinct)
    (h : Pointwise R (fun key => entries.get? key) (fun key => others.get? key)) :
    entries.length = others.length := by
  have hkeys : ∀ key, key ∈ entries.keys ↔ key ∈ others.keys := by
    intro key
    rw [mem_keys_iff, mem_keys_iff, h.isSome_eq key]
  have hperm := (List.perm_ext_iff_of_nodup hdistinct hdistinct').mpr hkeys
  simpa [keys] using hperm.length_eq

/-- Looking up each entry of one dictionary in another of the same length compares them at all
keys. -/
theorem pointwise_iff (hdistinct : entries.Distinct) (hdistinct' : others.Distinct) :
    Pointwise R (fun key => entries.get? key) (fun key => others.get? key) ↔
      entries.length = others.length ∧
        ∀ entry ∈ entries, ∃ w, others.get? entry.1 = some w ∧ R entry.2 w := by
  constructor
  · intro h
    refine ⟨length_eq_of_pointwise hdistinct hdistinct' h, fun entry hentry => ?_⟩
    have hat : Option.Rel R (entries.get? entry.1) (others.get? entry.1) := h entry.1
    rw [get?_of_mem hdistinct hentry] at hat
    cases hfound : others.get? entry.1 <;> simp_all
  · rintro ⟨hlength, hentries⟩ key
    change Option.Rel R (entries.get? key) (others.get? key)
    have hsubset : entries.keys ⊆ others.keys := by
      intro key hkey
      obtain ⟨entry, hentry, rfl⟩ := List.mem_map.mp hkey
      obtain ⟨w, hw, -⟩ := hentries entry hentry
      simp [mem_keys_iff, hw]
    -- A key that is not found on the left is none of the keys on the right either.
    have hmem := (perm_keys_of_subset hdistinct hlength hsubset).mem_iff (a := key)
    rw [mem_keys_iff, mem_keys_iff] at hmem
    cases hfound : entries.get? key with
    | none =>
        have hnone : others.get? key = none := by simpa [hfound] using hmem
        rw [hnone]
        exact .none
    | some v =>
        obtain ⟨w, hw, hrel⟩ := hentries _ (mem_of_get? hfound)
        rw [hw]
        exact .some hrel

end Entries

end TaggedText
