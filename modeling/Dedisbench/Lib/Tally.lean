import Mathlib.Data.Finmap
import Mathlib.Algebra.BigOperators.Group.Finset.Basic
import Mathlib.Algebra.Order.BigOperators.Group.List

/-!
# Finite maps of counts

A store is a finite map from keys to counts.  `add` looks a key up and puts it back with more; a
cursor hands out the records of a store in some order (`Visits`); `addAll` adds a list of records,
`tally` counts the occurrences in a list.  Counts are in any commutative monoid with a one, so that
counters that wrap are counts too.

The two facts that the rest is made of are `lookup_tally`, what a tally holds, and `addAll_tally`:
adding the records of one tally to another is the tally of both lists.
-/

namespace Tally

variable {K V : Type*}

/-- A finite map from keys to counts. -/
abbrev Store (K V : Type*) := Finmap fun _ : K => V

/-- A cursor over the store returns the records `recs`, in this order. -/
structure Visits [DecidableEq K] (s : Store K V) (recs : List (K × V)) : Prop where
  nodup : recs.Nodup
  mem_iff : ∀ k v, (k, v) ∈ recs ↔ s.lookup k = some v

section Visits

variable [DecidableEq K] {s : Store K V} {recs recs' : List (K × V)}

theorem exists_visits (s : Store K V) : ∃ recs, Visits s recs := by
  induction s using Finmap.induction_on with
  | H a =>
    refine ⟨a.entries.map fun r => (r.1, r.2), ?_, fun k v => ?_⟩
    · apply a.nodupKeys.nodup.map
      rintro ⟨k, v⟩ ⟨k', v'⟩ h
      cases h
      rfl
    · rw [Finmap.lookup_toFinmap, ← Option.mem_def, AList.mem_lookup_iff, List.mem_map]
      constructor
      · rintro ⟨⟨k', v'⟩, hm, h⟩
        cases h
        exact hm
      · intro hm
        exact ⟨⟨k, v⟩, hm, rfl⟩

/-- The entries of the store, listed, are what a cursor returns. -/
theorem visits_of_entries (h : s.entries = recs.map fun r => (⟨r.1, r.2⟩ : Σ _ : K, V)) : Visits s recs := by
  constructor
  · apply List.Nodup.of_map fun r => (⟨r.1, r.2⟩ : Σ _ : K, V)
    rw [← Multiset.coe_nodup, ← h]
    exact s.nodup_entries
  · intro k v
    rw [Finmap.lookup_eq_some_iff, h, Multiset.mem_coe, List.mem_map]
    constructor
    · exact fun hr => ⟨(k, v), hr, rfl⟩
    · rintro ⟨⟨k', v'⟩, hr, heq⟩
      cases heq
      exact hr

theorem Visits.perm (h : Visits s recs) (h' : Visits s recs') : recs.Perm recs' := by
  rw [List.perm_ext_iff_of_nodup h.nodup h'.nodup]
  rintro ⟨k, v⟩
  rw [h.mem_iff, h'.mem_iff]

theorem Visits.nodup_keys (h : Visits s recs) : (recs.map Prod.fst).Nodup := by
  apply List.Nodup.map_on _ h.nodup
  rintro ⟨k, v⟩ hr ⟨k', v'⟩ hr' rfl
  have hv := ((h.mem_iff _ _).mp hr).symm.trans ((h.mem_iff _ _).mp hr')
  rw [Option.some.inj hv]

theorem Visits.mem_keys (h : Visits s recs) {k : K} : k ∈ recs.map Prod.fst ↔ k ∈ s := by
  rw [Finmap.mem_iff, List.mem_map]
  constructor
  · rintro ⟨⟨k, v⟩, hr, rfl⟩
    exact ⟨v, (h.mem_iff _ _).mp hr⟩
  · rintro ⟨v, hv⟩
    exact ⟨(k, v), (h.mem_iff _ _).mpr hv, rfl⟩

theorem Visits.toFinset_keys (h : Visits s recs) : (recs.map Prod.fst).toFinset = s.keys := by
  ext k
  rw [List.mem_toFinset, h.mem_keys, Finmap.mem_keys]

/-- A cursor returns as many records as there are keys. -/
theorem Visits.length (h : Visits s recs) : recs.length = s.keys.card := by
  rw [← h.toFinset_keys, List.toFinset_card_of_nodup h.nodup_keys, List.length_map]

/-- A cursor returns as many records of a kind as there are keys of that kind. -/
theorem Visits.countP_keys (h : Visits s recs) (p : K → Prop) [DecidablePred p] :
    recs.countP (fun r => p r.1) = (s.keys.filter p).card := by
  have hfilter : ((recs.map Prod.fst).filter fun k => p k).toFinset = s.keys.filter p := by
    rw [List.toFinset_filter, h.toFinset_keys]
    simp
  rw [← hfilter, List.toFinset_card_of_nodup (h.nodup_keys.filter _), ← List.countP_eq_length_filter,
    List.countP_map]
  rfl

theorem Visits.filter_of_notMem (h : Visits s recs) {k : K} (hk : k ∉ s) :
    recs.filter (fun r => r.1 = k) = [] := by
  apply List.filter_eq_nil_iff.mpr
  intro r hr hrk
  exact hk (h.mem_keys.mp (List.mem_map.mpr ⟨r, hr, of_decide_eq_true hrk⟩))

end Visits

/-! ### The count of a key -/

section Value

variable [DecidableEq K] [Zero V] {s t : Store K V} {recs : List (K × V)}

/-- The count of a key, zero if it is missing. -/
def valueAt (s : Store K V) (k : K) : V := (s.lookup k).getD 0

theorem valueAt_of_lookup {k : K} {v : V} (h : s.lookup k = some v) : valueAt s k = v := by
  rw [valueAt, h, Option.getD_some]

theorem valueAt_of_notMem {k : K} (h : k ∉ s) : valueAt s k = 0 := by
  rw [valueAt, Finmap.lookup_eq_none.mpr h, Option.getD_none]

theorem valueAt_empty (k : K) : valueAt (∅ : Store K V) k = 0 := rfl

theorem lookup_of_mem {k : K} (h : k ∈ s) : s.lookup k = some (valueAt s k) := by
  rcases Finmap.mem_iff.mp h with ⟨v, hv⟩
  rw [valueAt_of_lookup hv, hv]

/-- Stores with the same keys and the same counts are the same. -/
theorem ext_valueAt (hmem : ∀ k, k ∈ s ↔ k ∈ t) (hval : ∀ k, valueAt s k = valueAt t k) : s = t := by
  apply Finmap.ext_lookup
  intro k
  by_cases hk : k ∈ s
  · rw [lookup_of_mem hk, lookup_of_mem ((hmem k).mp hk), hval]
  · rw [Finmap.lookup_eq_none.mpr hk, Finmap.lookup_eq_none.mpr fun h => hk ((hmem k).mpr h)]

/-- A record a cursor returns holds the count of its key. -/
theorem Visits.snd_eq (h : Visits s recs) {r : K × V} (hr : r ∈ recs) : r.2 = valueAt s r.1 :=
  (valueAt_of_lookup ((h.mem_iff r.1 r.2).mp hr)).symm

/-- A cursor returns the record of a key once. -/
theorem Visits.filter_of_mem (h : Visits s recs) {k : K} (hk : k ∈ s) :
    recs.filter (fun r => r.1 = k) = [(k, valueAt s k)] := by
  rw [← List.perm_singleton, List.perm_ext_iff_of_nodup (h.nodup.filter _) (List.nodup_singleton _)]
  rintro ⟨a, v⟩
  simp only [List.mem_filter, h.mem_iff, decide_eq_true_eq, List.mem_singleton, Prod.mk.injEq]
  constructor
  · rintro ⟨hv, rfl⟩
    exact ⟨rfl, (valueAt_of_lookup hv).symm⟩
  · rintro ⟨rfl, rfl⟩
    exact ⟨lookup_of_mem hk, rfl⟩

/-- A sum over the records is a sum over the keys. -/
theorem Visits.sum_map {M : Type*} [AddCommMonoid M] (h : Visits s recs) (p : K → Prop) [DecidablePred p] (f : V → M) :
    ((recs.filter fun r => p r.1).map fun r => f r.2).sum = ∑ k ∈ s.keys.filter p, f (valueAt s k) := by
  have hkeys : ((recs.filter fun r => p r.1).map Prod.fst).toFinset = s.keys.filter p := by
    ext k
    rw [Finset.mem_filter, ← h.toFinset_keys]
    simp only [List.mem_toFinset, List.mem_map, List.mem_filter, decide_eq_true_eq]
    constructor
    · rintro ⟨r, ⟨hr, hp⟩, rfl⟩
      exact ⟨⟨r, hr, rfl⟩, hp⟩
    · rintro ⟨⟨r, hr, rfl⟩, hp⟩
      exact ⟨r, ⟨hr, hp⟩, rfl⟩
  have hnodup : ((recs.filter fun r => p r.1).map Prod.fst).Nodup :=
    h.nodup_keys.sublist (List.filter_sublist.map _)
  rw [← hkeys, List.sum_toFinset _ hnodup, List.map_map]
  congr 1
  apply List.map_congr_left
  intro r hr
  rw [Function.comp_apply, h.snd_eq (List.mem_of_mem_filter hr)]

/-- How often a value comes up among the records of a cursor: once for each key that has it. -/
theorem Visits.count_map {K' : Type*} [DecidableEq K'] [BEq K'] [LawfulBEq K'] (h : Visits s recs) (f : V → K') (x : K') :
    (recs.map fun r => f r.2).count x = (s.keys.filter fun k => f (valueAt s k) = x).card := by
  rw [← h.countP_keys, List.count, List.countP_map]
  apply List.countP_congr
  intro r hr
  simp [h.snd_eq hr]

end Value

/-! ### Adding to a store -/

section Add

variable [DecidableEq K] [AddCommMonoid V] {s : Store K V} {k k' : K} {n : V}

/-- The key is looked up, and put with `n` or with `n` more. -/
def add (s : Store K V) (k : K) (n : V) : Store K V :=
  match s.lookup k with
  | none => s.insert k n
  | some m => s.insert k (m + n)

theorem lookup_add_self : (add s k n).lookup k = some (valueAt s k + n) := by
  unfold add valueAt
  cases s.lookup k <;> simp

theorem lookup_add_of_ne (h : k' ≠ k) : (add s k n).lookup k' = s.lookup k' := by
  unfold add
  split <;> exact Finmap.lookup_insert_of_ne _ h

theorem mem_add : k' ∈ add s k n ↔ k' = k ∨ k' ∈ s := by
  unfold add
  split <;> exact Finmap.mem_insert

theorem valueAt_add : valueAt (add s k n) k' = valueAt s k' + if k' = k then n else 0 := by
  rcases eq_or_ne k' k with rfl | h
  · rw [if_pos rfl, valueAt_of_lookup lookup_add_self]
  · rw [if_neg h, add_zero, valueAt, lookup_add_of_ne h, valueAt]

/-- Every record is added. -/
def addAll (s : Store K V) (recs : List (K × V)) : Store K V :=
  recs.foldl (fun s r => add s r.1 r.2) s

variable {recs recs' : List (K × V)}

theorem addAll_append : addAll s (recs ++ recs') = addAll (addAll s recs) recs' :=
  List.foldl_append

theorem mem_addAll : k ∈ addAll s recs ↔ k ∈ s ∨ k ∈ recs.map Prod.fst := by
  induction recs generalizing s with
  | nil => simp [addAll]
  | cons r recs ih =>
    rw [addAll, List.foldl_cons, ← addAll, ih, mem_add, List.map_cons, List.mem_cons]
    tauto

theorem valueAt_addAll :
    valueAt (addAll s recs) k = valueAt s k + ((recs.filter fun r => r.1 = k).map Prod.snd).sum := by
  induction recs generalizing s with
  | nil => simp [addAll]
  | cons r recs ih =>
    rw [addAll, List.foldl_cons, ← addAll, ih, valueAt_add]
    rcases eq_or_ne r.1 k with rfl | h
    · simp [add_assoc]
    · simp [h, h.symm]

/-- **The order of the records does not matter.** -/
theorem addAll_perm (h : recs.Perm recs') : addAll s recs = addAll s recs' := by
  apply ext_valueAt
  · intro k
    rw [mem_addAll, mem_addAll, (h.map Prod.fst).mem_iff]
  · intro k
    rw [valueAt_addAll, valueAt_addAll, ((h.filter _).map _).sum_eq]

/-- The records of a cursor that have a given key add up to its count. -/
theorem Visits.sum_filter (h : Visits s recs) (k : K) :
    ((recs.filter fun r => r.1 = k).map Prod.snd).sum = valueAt s k := by
  by_cases hk : k ∈ s
  · simp [h.filter_of_mem hk]
  · rw [h.filter_of_notMem hk, valueAt_of_notMem hk]
    rfl

variable {t : Store K V}

/-- **Merging a store into another adds their counts.** -/
theorem valueAt_merge (h : Visits t recs) (k : K) :
    valueAt (addAll s recs) k = valueAt s k + valueAt t k := by
  rw [valueAt_addAll, h.sum_filter]

theorem mem_merge (h : Visits t recs) : k ∈ addAll s recs ↔ k ∈ s ∨ k ∈ t := by
  rw [mem_addAll, h.mem_keys]

end Add

/-! ### Tallies -/

section Tally

variable [DecidableEq K] [AddCommMonoid V] [One V]

/-- The number of occurrences of every element of a list. -/
def tally (V : Type*) [AddCommMonoid V] [One V] (xs : List K) : Store K V := addAll ∅ (xs.map fun x => (x, 1))

theorem tally_concat (xs : List K) (x : K) : tally V (xs ++ [x]) = add (tally V xs) x 1 := by
  rw [tally, List.map_append, addAll_append]
  rfl

theorem mem_tally {xs : List K} {k : K} : k ∈ tally V xs ↔ k ∈ xs := by
  simp [tally, mem_addAll, Finmap.notMem_empty]

theorem keys_tally (xs : List K) : (tally V xs).keys = xs.toFinset := by
  ext k
  rw [Finmap.mem_keys, mem_tally, List.mem_toFinset]

theorem valueAt_tally [BEq K] [LawfulBEq K] (xs : List K) (k : K) : valueAt (tally V xs) k = xs.count k • (1 : V) := by
  rw [tally, valueAt_addAll, valueAt_empty, zero_add]
  induction xs with
  | nil => simp
  | cons x xs ih =>
    rcases eq_or_ne x k with rfl | h
    · simp [ih, succ_nsmul']
    · simp [h, ih]

/-- The counts of a list add up to its length, whichever test for equality counts. -/
theorem sum_count [BEq K] [LawfulBEq K] (xs : List K) : ∑ k ∈ xs.toFinset, xs.count k = xs.length := by
  rw [← List.sum_toFinset_count_eq_length xs]
  apply Finset.sum_congr rfl
  intro k _
  apply List.countP_congr
  simp

/-- **What a tally holds.** -/
theorem lookup_tally [BEq K] [LawfulBEq K] (xs : List K) (k : K) :
    (tally V xs).lookup k = if k ∈ xs then some (xs.count k • (1 : V)) else none := by
  split
  next h => rw [lookup_of_mem (mem_tally.mpr h), valueAt_tally]
  next h => exact Finmap.lookup_eq_none.mpr (mt mem_tally.mp h)

theorem tally_perm {xs ys : List K} (h : xs.Perm ys) : tally V xs = tally V ys :=
  addAll_perm (h.map _)

/-- **Merging is a homomorphism.**  The records of the tally of one list, added to the tally of another, make the
tally of both. -/
theorem addAll_tally {xs ys : List K} {recs : List (K × V)} (h : Visits (tally V xs) recs) :
    addAll (tally V ys) recs = tally V (xs ++ ys) := by
  apply ext_valueAt
  · intro k
    rw [mem_merge h, mem_tally, mem_tally, mem_tally, List.mem_append, or_comm]
  · intro k
    rw [valueAt_merge h, valueAt_tally, valueAt_tally, valueAt_tally, List.count_append, add_nsmul, add_comm]

/-- A tally of what a cursor returns counts, for each value, the keys that have it. -/
theorem Visits.valueAt_tally {K' : Type*} [DecidableEq K'] {s : Store K' V} {recs : List (K' × V)}
    (h : Visits s recs) (f : V → K) (x : K) :
    valueAt (tally V (recs.map fun r => f r.2)) x =
      (s.keys.filter fun k => f (valueAt s k) = x).card • (1 : V) := by
  rw [Tally.valueAt_tally, h.count_map]

theorem Visits.mem_tally {K' : Type*} [DecidableEq K'] {s : Store K' V} {recs : List (K' × V)}
    (h : Visits s recs) (f : V → K) (x : K) :
    x ∈ tally V (recs.map fun r => f r.2) ↔ ∃ k ∈ s.keys, f (valueAt s k) = x := by
  rw [Tally.mem_tally, ← List.count_pos_iff, h.count_map, Finset.card_pos]
  simp [Finset.Nonempty]

end Tally

end Tally
