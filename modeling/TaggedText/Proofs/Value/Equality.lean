import TaggedText.Proofs.Value.RoundTrip

/-!
# Equality of values is a partial equivalence

Two values are compared by looking from the left one into the right one. It is the keys of a map
that are looked up, so nothing in the comparison itself says that the right map has no others. That
follows from the lengths, because no key occurs twice in a map.

One layer of the comparison is the same from both sides: the values at each place are compared, and
both have the same places. Symmetry and transitivity are then inductions on the depth of a value. A
number is the same as itself unless it is nan, and so a value is the same as itself unless nan is
somewhere inside.
-/
namespace TaggedText

namespace Number

variable {m n p : Number}

theorem same_comm (m n : Number) : m.same n = n.same m := by
  cases m <;> cases n <;> simp [same]
  all_goals grind

theorem same_trans (hmn : m.same n) (hnp : n.same p) : m.same p := by
  cases m <;> cases n <;> cases p <;> grind [same]

theorem same_self_iff : n.same n ↔ n ≠ .nan := by
  cases n <;> simp [same]

end Number

namespace Value

/-- The values that a value is made of. -/
def inside : Value → List Value
  | array items => items
  | map entries => entries.map Prod.snd
  | call _ arguments => arguments.map Prod.snd
  | _ => []

/-- One layer of a comparison, where `R` compares what is inside. Entries and arguments are compared
under each key, whatever their order. A custom object is known by its identity alone. -/
inductive Compare (R : Value → Value → Prop) : Value → Value → Prop
  | null : Compare R null null
  | bool (b : Bool) : Compare R (bool b) (bool b)
  | number {m n : Number} : m.same n → Compare R (number m) (number n)
  | string (s : String) : Compare R (string s) (string s)
  | array {xs ys : List Value} : Pointwise R (fun i : Nat => xs[i]?) (fun i : Nat => ys[i]?) →
      Compare R (array xs) (array ys)
  | map {x y : Entries Value} : Pointwise R (fun key => x.get? key) (fun key => y.get? key) →
      Compare R (map x) (map y)
  | reference (path : List PathSegment) : Compare R (reference path) (reference path)
  | call {x y : Entries Value} (name : String) :
      Pointwise R (fun key => x.get? key) (fun key => y.get? key) →
      Compare R (call name x) (call name y)
  | custom (identity : Nat) (s t : String) : Compare R (custom identity s) (custom identity t)

/-- Nan is somewhere in the value. -/
inductive HoldsNan : Value → Prop
  | nan : HoldsNan (number .nan)
  | inside {v w : Value} : w ∈ v.inside → HoldsNan w → HoldsNan v

/-- The same map or call with its entries in another order. -/
inductive Reordered : Value → Value → Prop
  | map {x y : Entries Value} : x.Perm y → Reordered (map x) (map y)
  | call {x y : Entries Value} (name : String) : x.Perm y →
      Reordered (call name x) (call name y)

variable {a b c v w : Value} {R S T : Value → Value → Prop}

theorem sizeOf_lt_of_mem_entries {entries : Entries Value} (h : w ∈ entries.map Prod.snd) :
    sizeOf w < sizeOf entries := by
  obtain ⟨entry, hentry, rfl⟩ := List.mem_map.mp h
  have hlt := List.sizeOf_lt_of_mem hentry
  cases entry
  simp at hlt ⊢
  omega

theorem sizeOf_lt_of_mem_inside (h : w ∈ v.inside) : sizeOf w < sizeOf v := by
  cases v with
  | array items =>
      have hlt : sizeOf w < sizeOf items := List.sizeOf_lt_of_mem h
      simp
      omega
  | map entries =>
      have hlt := sizeOf_lt_of_mem_entries h
      simp
      omega
  | call name arguments =>
      have hlt := sizeOf_lt_of_mem_entries h
      simp
      omega
  | _ => cases h

@[elab_as_elim]
theorem inside_induction {P : Value → Prop} (h : ∀ v, (∀ w ∈ v.inside, P w) → P v) (v : Value) :
    P v :=
  h v fun w _ => inside_induction h w
termination_by sizeOf v
decreasing_by exact sizeOf_lt_of_mem_inside ‹_›

theorem Distinct.inside (h : v.Distinct) (hw : w ∈ v.inside) : w.Distinct := by
  cases v with
  | array items => exact distinctItems_iff.mp h w hw
  | map entries => exact List.forall_mem_map.mpr (distinctEntries_iff.mp h.2) w hw
  | call name arguments => exact List.forall_mem_map.mpr (distinctEntries_iff.mp h.2) w hw
  | _ => cases hw

theorem Compare.swap (h : Compare R a b)
    (himp : ∀ x ∈ a.inside, ∀ y ∈ b.inside, R x y → S y x) : Compare S b a := by
  cases h with
  | null => exact .null
  | bool p => exact .bool p
  | number hn => exact .number (by rwa [Number.same_comm])
  | string s => exact .string s
  | array hitems =>
      exact .array (hitems.swap fun i x hx y hy =>
        himp x (List.mem_of_getElem? hx) y (List.mem_of_getElem? hy))
  | map hentries => exact .map (Entries.pointwise_swap hentries himp)
  | reference path => exact .reference path
  | call name harguments => exact .call name (Entries.pointwise_swap harguments himp)
  | custom identity s t => exact .custom identity t s

theorem Compare.trans (hab : Compare R a b) (hbc : Compare S b c)
    (himp : ∀ x ∈ a.inside, ∀ y ∈ b.inside, ∀ z ∈ c.inside, R x y → S y z → T x z) :
    Compare T a c := by
  cases hab with
  | null => cases hbc with | null => exact .null
  | bool p => cases hbc with | bool => exact .bool p
  | number hmn => cases hbc with | number hnp => exact .number (Number.same_trans hmn hnp)
  | string s => cases hbc with | string => exact .string s
  | array hxy =>
      cases hbc with
      | array hyz =>
          exact .array (hxy.trans hyz fun i x hx y hy z hz =>
            himp x (List.mem_of_getElem? hx) y (List.mem_of_getElem? hy) z
              (List.mem_of_getElem? hz))
  | map hxy =>
      cases hbc with
      | map hyz => exact .map (Entries.pointwise_trans hxy hyz himp)
  | reference path => cases hbc with | reference => exact .reference path
  | call name hxy =>
      cases hbc with
      | call _ hyz => exact .call name (Entries.pointwise_trans hxy hyz himp)
  | custom identity s t => cases hbc with | custom _ _ u => exact .custom identity s u

theorem compare_self_iff (h : v.Distinct) :
    Compare R v v ↔ v ≠ number .nan ∧ ∀ w ∈ v.inside, R w w := by
  constructor
  · intro hv
    cases hv with
    | number hn => simpa [inside] using Number.same_self_iff.mp hn
    | array hitems =>
        refine ⟨nofun, fun w hw => ?_⟩
        obtain ⟨i, hi⟩ := List.mem_iff_getElem?.mp hw
        exact Pointwise.self_iff.mp hitems i w hi
    | map hentries => exact ⟨nofun, (Entries.pointwise_self_iff h.1).mp hentries⟩
    | call name harguments => exact ⟨nofun, (Entries.pointwise_self_iff h.1).mp harguments⟩
    | _ => simp [inside]
  · rintro ⟨hne, hinside⟩
    cases v with
    | null => exact .null
    | bool b => exact .bool b
    | number n => exact .number (Number.same_self_iff.mpr (by simpa using hne))
    | string s => exact .string s
    | array items =>
        exact .array (Pointwise.self_iff.mpr fun i w hw => hinside w (List.mem_of_getElem? hw))
    | map entries => exact .map ((Entries.pointwise_self_iff h.1).mpr hinside)
    | reference path => exact .reference path
    | call name arguments =>
        exact .call name ((Entries.pointwise_self_iff h.1).mpr hinside)
    | custom identity text => exact .custom identity text text

theorem sameItems_iff {xs ys : List Value} : sameItems xs ys ↔
    Pointwise (fun v w => v.same w = true) (fun i : Nat => xs[i]?) (fun i : Nat => ys[i]?) := by
  induction xs generalizing ys with
  | nil =>
      cases ys with
      | nil => simp [sameItems, Pointwise]
      | cons y ys =>
          constructor
          · intro h
            cases h
          · intro h
            have hfirst := h 0
            simp at hfirst
  | cons x xs ih =>
      cases ys with
      | nil =>
          constructor
          · intro h
            cases h
          · intro h
            have hfirst := h 0
            simp at hfirst
      | cons y ys =>
          rw [sameItems, Bool.and_eq_true, ih]
          constructor
          · rintro ⟨hfirst, hrest⟩ i
            cases i with
            | zero => simpa using hfirst
            | succ i => simpa using hrest i
          · intro h
            exact ⟨by simpa using h 0, fun i => by simpa using h (i + 1)⟩

theorem sameMaps_iff {x y : Entries Value} (hx : x.Distinct) (hy : y.Distinct) :
    (x.length == y.length && sameEntries x y) = true ↔
      Pointwise (fun v w => v.same w = true) (fun key => x.get? key) (fun key => y.get? key) := by
  rw [Entries.pointwise_iff hx hy, Bool.and_eq_true, beq_iff_eq, sameEntries_iff]

/-- The comparison that looks from left to right is the one that knows no sides. -/
theorem same_iff_compare (ha : a.Distinct) (hb : b.Distinct) :
    a.same b ↔ Compare (fun v w => v.same w) a b := by
  constructor
  · intro h
    unfold same at h
    split at h
    next => exact .null
    next => exact eq_of_beq h ▸ .bool _
    next => exact .number h
    next => exact eq_of_beq h ▸ .string _
    next => exact .array (sameItems_iff.mp h)
    next => exact .map ((sameMaps_iff ha.1 hb.1).mp h)
    next => exact eq_of_beq h ▸ .reference _
    next =>
      rw [Bool.and_assoc, Bool.and_eq_true] at h
      exact eq_of_beq h.1 ▸ .call _ ((sameMaps_iff ha.1 hb.1).mp h.2)
    next => exact eq_of_beq h ▸ .custom _ _ _
    next => cases h
  · intro h
    cases h with
    | number hn => exact hn
    | array hitems => exact sameItems_iff.mpr hitems
    | map hentries => exact (sameMaps_iff ha.1 hb.1).mpr hentries
    | call name harguments =>
        rw [same, Bool.and_assoc, (sameMaps_iff ha.1 hb.1).mpr harguments]
        simp
    | _ => simp [same]

theorem same_symm (ha : a.Distinct) (hb : b.Distinct) (h : a.same b) : b.same a := by
  induction a using inside_induction generalizing b with
  | h a ih =>
      have hcompare := (same_iff_compare ha hb).mp h
      refine (same_iff_compare hb ha).mpr (hcompare.swap fun x hx y hy hxy => ?_)
      exact ih x hx (ha.inside hx) (hb.inside hy) hxy

theorem same_comm (ha : a.Distinct) (hb : b.Distinct) : a.same b = b.same a :=
  Bool.eq_iff_iff.mpr ⟨same_symm ha hb, same_symm hb ha⟩

theorem same_trans (ha : a.Distinct) (hb : b.Distinct) (hc : c.Distinct) (hab : a.same b)
    (hbc : b.same c) : a.same c := by
  induction a using inside_induction generalizing b c with
  | h a ih =>
      have hfirst := (same_iff_compare ha hb).mp hab
      have hsecond := (same_iff_compare hb hc).mp hbc
      refine (same_iff_compare ha hc).mpr (hfirst.trans hsecond fun x hx y hy z hz hxy hyz => ?_)
      exact ih x hx (ha.inside hx) (hb.inside hy) (hc.inside hz) hxy hyz

theorem holdsNan_iff : v.HoldsNan ↔ v = number .nan ∨ ∃ w ∈ v.inside, w.HoldsNan := by
  constructor
  · intro h
    cases h with
    | nan => exact .inl rfl
    | inside hw hnan => exact .inr ⟨_, hw, hnan⟩
  · rintro (rfl | ⟨w, hw, hnan⟩)
    · exact .nan
    · exact .inside hw hnan

theorem same_self_iff (h : v.Distinct) : v.same v ↔ ¬ v.HoldsNan := by
  induction v using inside_induction with
  | h v ih =>
      have hinside : (∀ w ∈ v.inside, w.same w) ↔ ∀ w ∈ v.inside, ¬ w.HoldsNan :=
        forall₂_congr fun w hw => ih w hw (h.inside hw)
      rw [same_iff_compare h h, compare_self_iff h, hinside, holdsNan_iff]
      simp

theorem distinctEntries_of_perm {x y : Entries Value} (hx : DistinctEntries x) (h : x.Perm y) :
    DistinctEntries y :=
  distinctEntries_iff.mpr fun entry hentry =>
    distinctEntries_iff.mp hx entry (h.mem_iff.mpr hentry)

theorem Reordered.distinct (h : a.Reordered b) (ha : a.Distinct) : b.Distinct := by
  cases h with
  | map hperm => exact ⟨Entries.distinct_of_perm ha.1 hperm, distinctEntries_of_perm ha.2 hperm⟩
  | call name hperm =>
      exact ⟨Entries.distinct_of_perm ha.1 hperm, distinctEntries_of_perm ha.2 hperm⟩

theorem Reordered.symm (h : a.Reordered b) : b.Reordered a := by
  cases h with
  | map hperm => exact .map hperm.symm
  | call name hperm => exact .call name hperm.symm

theorem Compare.of_reordered (hac : Compare R a c) (h : a.Reordered b) (ha : a.Distinct) :
    Compare R b c := by
  cases h with
  | map hperm =>
      cases hac with
      | map hentries => exact .map (Entries.get?_of_perm ha.1 hperm ▸ hentries)
  | call name hperm =>
      cases hac with
      | call _ harguments => exact .call name (Entries.get?_of_perm ha.1 hperm ▸ harguments)

theorem same_of_reordered (h : a.Reordered b) (ha : a.Distinct) (hc : c.Distinct) :
    b.same c = a.same c := by
  have hb := h.distinct ha
  rw [Bool.eq_iff_iff, same_iff_compare hb hc, same_iff_compare ha hc]
  exact ⟨fun hbc => hbc.of_reordered h.symm hb, fun hac => hac.of_reordered h ha⟩

/-- Among values whose maps and arguments are dictionaries, in which no key occurs twice, equality
is symmetric and transitive, and a value is the same as itself exactly when nan is nowhere inside.
One layer of it is compared without regard to sides or to the order of entries, with custom objects
by their identity, so entries in another order make no difference. -/
theorem same_partial_equivalence (a b c : Value) (ha : a.Distinct) (hb : b.Distinct)
    (hc : c.Distinct) :
    (a.same b → b.same a) ∧ (a.same b → b.same c → a.same c) ∧ (a.same a ↔ ¬ a.HoldsNan) ∧
      (a.same b ↔ Compare (fun v w => v.same w) a b) ∧
      ∀ d, a.Reordered d → d.same b = a.same b ∧ b.same d = b.same a := by
  refine ⟨same_symm ha hb, same_trans ha hb hc, same_self_iff ha, same_iff_compare ha hb, ?_⟩
  intro d h
  have hd := h.distinct ha
  have hleft := same_of_reordered h ha hb
  exact ⟨hleft, by rw [same_comm hb hd, same_comm hb ha, hleft]⟩

/-- A map that holds zero and a custom object. -/
def plusZero : Value :=
  map [("x", array [number (.ofRank false 0), custom 1 "p"]), ("y", call "f" [("n", null)])]

/-- The same map with the other zero and another text, in another order. -/
def minusZero : Value :=
  map [("y", call "f" [("n", null)]), ("x", array [number (.ofRank true 0), custom 1 "q"])]

theorem same_partial_equivalence_zero :
    (plusZero.Distinct ∧ minusZero.Distinct) ∧ plusZero.same minusZero ∧ minusZero.same plusZero ∧
      plusZero.same plusZero ∧
      ¬ (array [plusZero, number .nan]).same (array [plusZero, number .nan]) := by
  have hzero : plusZero.Distinct := by
    simp [plusZero, Distinct, DistinctEntries, DistinctItems, Entries.Distinct, Entries.keys]
  have hother : minusZero.Distinct := by
    simp [minusZero, Distinct, DistinctEntries, DistinctItems, Entries.Distinct, Entries.keys]
  have hnan : (array [plusZero, number .nan]).Distinct := ⟨hzero, trivial, trivial⟩
  have hsame : plusZero.same minusZero := by decide
  obtain ⟨hsymm, htrans, -⟩ := same_partial_equivalence _ _ _ hzero hother hzero
  obtain ⟨-, -, hself, -⟩ := same_partial_equivalence _ plusZero plusZero hnan hzero hzero
  refine ⟨⟨hzero, hother⟩, hsame, hsymm hsame, htrans hsame (hsymm hsame), ?_⟩
  rw [hself, not_not]
  exact .inside (by simp [inside]) .nan

end Value

end TaggedText
