/-!
# Ordered dictionaries

A dictionary is the list of its entries. Inserting under a key that is there replaces
the value and keeps the place of the entry; inserting under a new key appends. A list
built by `insert` from the empty one has distinct keys, and its order is the order in
which the keys first came.
-/
namespace TaggedText

/-- Entries of an ordered dictionary. -/
abbrev Entries (α : Type) := List (String × α)

namespace Entries

variable {α : Type}

def keys (entries : Entries α) : List String :=
  entries.map Prod.fst

/-- The value under a key. -/
def get? (key : String) : Entries α → Option α
  | [] => none
  | (k, v) :: rest => if k = key then some v else get? key rest

/-- Replaces the value under a key where it stands, or appends an entry. -/
def insert (key : String) (value : α) : Entries α → Entries α
  | [] => [(key, value)]
  | (k, v) :: rest =>
      if k = key then (key, value) :: rest else (k, v) :: insert key value rest

/-- Inserts entries one after another. -/
def insertAll (entries : Entries α) (added : List (String × α)) : Entries α :=
  added.foldl (fun es entry => insert entry.1 entry.2 es) entries

/-- The dictionary of a list of entries, where a later value replaces an earlier one. -/
def ofList (entries : List (String × α)) : Entries α :=
  insertAll [] entries

/-- No key occurs twice. -/
def Distinct (entries : Entries α) : Prop :=
  (keys entries).Nodup

theorem get?_insert (key other : String) (value : α) (entries : Entries α) :
    get? other (insert key value entries) =
      if key = other then some value else get? other entries := by
  induction entries with
  | nil => simp [insert, get?]
  | cons entry rest ih =>
      obtain ⟨k, v⟩ := entry
      by_cases hk : k = key
      · by_cases ho : key = other <;> simp [insert, get?, hk, ho]
      · simp only [insert, hk, if_false, get?, ih]
        by_cases ho : k = other
        · have : ¬ key = other := fun h => hk (ho.trans h.symm)
          simp [ho, this]
        · simp [ho]

theorem keys_insert (key : String) (value : α) (entries : Entries α) :
    keys (insert key value entries) =
      if key ∈ keys entries then keys entries else keys entries ++ [key] := by
  induction entries with
  | nil => simp [insert, keys]
  | cons entry rest ih =>
      obtain ⟨k, v⟩ := entry
      simp only [keys] at ih
      by_cases hk : k = key
      · simp [insert, keys, hk]
      · have hk' : ¬ key = k := fun h => hk h.symm
        simp only [insert, keys, hk, if_false, List.map_cons, ih, List.mem_cons, hk', false_or]
        by_cases hm : key ∈ List.map Prod.fst rest <;> simp [hm]

theorem distinct_insert {key : String} {value : α} {entries : Entries α}
    (h : Distinct entries) : Distinct (insert key value entries) := by
  unfold Distinct
  rw [keys_insert]
  split
  · exact h
  · next hk =>
      refine List.nodup_append.2 ⟨h, by simp, ?_⟩
      intro a ha b hb
      rw [List.mem_singleton.1 hb]
      exact fun e => hk (e ▸ ha)

theorem distinct_insertAll {entries : Entries α} {added : List (String × α)}
    (h : Distinct entries) : Distinct (insertAll entries added) := by
  induction added generalizing entries with
  | nil => exact h
  | cons entry rest ih => exact ih (distinct_insert h)

theorem distinct_ofList (entries : List (String × α)) : Distinct (ofList entries) :=
  distinct_insertAll List.nodup_nil

theorem insert_eq_append {key : String} {value : α} {entries : Entries α}
    (h : key ∉ keys entries) : insert key value entries = entries ++ [(key, value)] := by
  induction entries with
  | nil => rfl
  | cons entry entries ih =>
      simp only [keys, List.map_cons, List.mem_cons, not_or] at h
      have hne : ¬ entry.1 = key := fun heq => h.1 heq.symm
      rw [insert, if_neg hne, ih h.2]
      rfl

theorem insertAll_eq_append {entries added : Entries α} (h : Distinct (entries ++ added)) :
    insertAll entries added = entries ++ added := by
  induction added generalizing entries with
  | nil => exact (List.append_nil entries).symm
  | cons entry added ih =>
      have hentry : entry.1 ∉ keys entries := by
        intro hmem
        rw [Distinct, keys, List.map_append] at h
        have hapart := (List.nodup_append.mp h).2.2
        exact hapart _ hmem _ List.mem_cons_self rfl
      have hinsert : insert entry.1 entry.2 entries = entries ++ [entry] := insert_eq_append hentry
      change insertAll (insert entry.1 entry.2 entries) added = _
      rw [hinsert, ih]
      · simp
      · simpa using h

/-- Where no key occurs twice, nothing is replaced. -/
theorem ofList_eq_self {entries : Entries α} (h : Distinct entries) : ofList entries = entries :=
  insertAll_eq_append h

end Entries

end TaggedText
