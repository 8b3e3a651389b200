import Mathlib.Algebra.BigOperators.Group.Finset.Basic
import Mathlib.Algebra.BigOperators.Group.Finset.Sigma
import Mathlib.Combinatorics.Enumerative.DoubleCounting
import Dedisbench.Lib.Tally

/-!
# How often the elements of a list occur

`occurring xs n` is the number of elements that occur exactly `n` times in a list: the histogram of the list.  It
depends on the list up to order and renaming, adds up over lists that share no element, and gives the length back
(`sum_mul_occurring`).  All elements are different exactly if every one of them occurs once
(`occurring_one_eq_length`).  Two lists that repeat at the same places have the same histogram
(`card_withCount_congr`).
-/

namespace Occur

variable {α β : Type*} [DecidableEq α] [BEq α] [LawfulBEq α] [DecidableEq β] [BEq β] [LawfulBEq β]
  {xs ys : List α} {n : ℕ}

/-- The number of elements that occur exactly `n` times. -/
def occurring (xs : List α) (n : ℕ) : ℕ := (xs.toFinset.filter fun x => xs.count x = n).card

omit [LawfulBEq α] in
theorem occurring_perm (h : xs.Perm ys) (n : ℕ) : occurring xs n = occurring ys n := by
  rw [occurring, occurring, List.toFinset_eq_of_perm _ _ h]
  simp only [h.count_eq]

theorem occurring_append (h : ∀ x ∈ xs, x ∉ ys) (n : ℕ) :
    occurring (xs ++ ys) n = occurring xs n + occurring ys n := by
  have hdisjoint : Disjoint (xs.toFinset.filter fun x => xs.count x = n)
      (ys.toFinset.filter fun x => ys.count x = n) := by
    rw [Finset.disjoint_left]
    intro x hx hy
    exact h x (List.mem_toFinset.mp (Finset.mem_filter.mp hx).1) (List.mem_toFinset.mp (Finset.mem_filter.mp hy).1)
  rw [occurring, occurring, occurring, ← Finset.card_union_of_disjoint hdisjoint]
  congr 1
  ext x
  simp only [Finset.mem_filter, Finset.mem_union, List.mem_toFinset, List.mem_append, List.count_append]
  by_cases hx : x ∈ xs
  · have hy := h x hx
    simp [hx, hy, List.count_eq_zero_of_not_mem hy]
  · simp [hx, List.count_eq_zero_of_not_mem hx]

theorem occurring_map {f : α → β} (hf : Function.Injective f) (xs : List α) (n : ℕ) :
    occurring (xs.map f) n = occurring xs n := by
  have himage : ((xs.map f).toFinset.filter fun y => (xs.map f).count y = n) =
      (xs.toFinset.filter fun x => xs.count x = n).image f := by
    ext y
    simp only [Finset.mem_filter, Finset.mem_image, List.mem_toFinset, List.mem_map]
    constructor
    · rintro ⟨⟨x, hx, rfl⟩, hn⟩
      rw [List.count_map_of_injective _ _ hf] at hn
      exact ⟨x, ⟨hx, hn⟩, rfl⟩
    · rintro ⟨x, ⟨hx, hn⟩, rfl⟩
      rw [List.count_map_of_injective _ _ hf]
      exact ⟨⟨x, hx, rfl⟩, hn⟩
  rw [occurring, himage, Finset.card_image_of_injective _ hf, occurring]

/-- The histogram of numbers below `m`, read off a table of their counts. -/
theorem occurring_eq_count {xs : List ℕ} {m : ℕ} (h : ∀ x ∈ xs, x < m) (hn : 0 < n) :
    occurring xs n = ((List.range m).map fun i => xs.count i).count n := by
  have hfilter : (xs.toFinset.filter fun x => xs.count x = n) = (Finset.range m).filter fun i => xs.count i = n := by
    ext x
    simp only [Finset.mem_filter, Finset.mem_range, List.mem_toFinset]
    constructor
    · exact fun hx => ⟨h x hx.1, hx.2⟩
    · rintro ⟨-, hx⟩
      exact ⟨List.count_pos_iff.mp (hx ▸ hn), hx⟩
  rw [occurring, hfilter, List.count, List.countP_map, List.countP_eq_length_filter]
  show (Multiset.filter _ (Multiset.range m)).card = _
  rw [Multiset.range, Multiset.filter_coe, Multiset.coe_card]
  rfl

/-- **The histogram of a list adds up to its length.** -/
theorem sum_mul_occurring {s : Finset ℕ} (h : ∀ x ∈ xs, xs.count x ∈ s) :
    ∑ n ∈ s, n * occurring xs n = xs.length := by
  have hmaps : ∀ x ∈ xs.toFinset, xs.count x ∈ s := fun x hx => h x (List.mem_toFinset.mp hx)
  rw [← Tally.sum_count xs, ← Finset.sum_fiberwise_of_maps_to hmaps]
  apply Finset.sum_congr rfl
  intro n _
  rw [Finset.sum_congr rfl fun x hx => (Finset.mem_filter.mp hx).2, Finset.sum_const, occurring]
  exact Nat.mul_comm _ _

omit [LawfulBEq α] in
theorem occurring_le (xs : List α) (n : ℕ) : occurring xs n ≤ xs.toFinset.card := Finset.card_filter_le _ _

/-- **As many elements as places occur once**: all elements are different. -/
theorem occurring_one_eq_length : occurring xs 1 = xs.length ↔ xs.Nodup := by
  constructor
  · intro h
    have hle := occurring_le xs 1
    have hcard := List.toFinset_card_le xs
    have heq : xs.toFinset.card = xs.length := le_antisymm hcard (h ▸ hle)
    exact Multiset.coe_nodup.mp (Multiset.toFinset_card_eq_card_iff_nodup.mp heq)
  · intro h
    rw [occurring, Finset.filter_true_of_mem, List.toFinset_card_of_nodup h]
    intro x hx
    exact List.count_eq_one_of_mem h (List.mem_toFinset.mp hx)

theorem occurring_of_nodup (h : xs.Nodup) (hn : 1 < n) : occurring xs n = 0 := by
  rw [occurring, Finset.card_eq_zero, Finset.filter_eq_empty_iff]
  intro x _ hx
  have hle := List.nodup_iff_count_le_one.mp h x
  omega

/-! ### Lists that repeat at the same places -/

/-- The elements that occur so often. -/
def withCount (xs : List α) (p : ℕ → Prop) [DecidablePred p] : Finset α := xs.toFinset.filter fun x => p (xs.count x)

omit [LawfulBEq α] in
theorem withCount_perm (h : xs.Perm ys) (p : ℕ → Prop) [DecidablePred p] : withCount xs p = withCount ys p := by
  rw [withCount, withCount, List.toFinset_eq_of_perm _ _ h]
  exact Finset.filter_congr fun x _ => by rw [h.count_eq]

/-- All elements occur. -/
theorem withCount_pos (xs : List α) : withCount xs (0 < ·) = xs.toFinset :=
  Finset.filter_true_of_mem fun _ hx => List.count_pos_iff.mpr (List.mem_toFinset.mp hx)

section Pattern

variable {γ : Type*} {zs : List γ} {f : γ → α} {g : γ → β}

omit [DecidableEq α] [DecidableEq β] in
theorem count_map_congr (h : ∀ z ∈ zs, ∀ z' ∈ zs, f z = f z' ↔ g z = g z') {z : γ} (hz : z ∈ zs) :
    (zs.map f).count (f z) = (zs.map g).count (g z) := by
  rw [List.count, List.count, List.countP_map, List.countP_map]
  apply List.countP_congr
  intro z' hz'
  simpa using h z' hz' z hz

theorem card_withCount_le (h : ∀ z ∈ zs, ∀ z' ∈ zs, f z = f z' ↔ g z = g z') (p : ℕ → Prop) [DecidablePred p] :
    (withCount (zs.map f) p).card ≤ (withCount (zs.map g) p).card := by
  apply Finset.card_le_card_of_forall_subsingleton fun x y => ∃ z ∈ zs, f z = x ∧ g z = y
  · intro x hx
    obtain ⟨hmem, hp⟩ := Finset.mem_filter.mp hx
    obtain ⟨z, hz, rfl⟩ := List.mem_map.mp (List.mem_toFinset.mp hmem)
    refine ⟨g z, Finset.mem_filter.mpr ⟨List.mem_toFinset.mpr (List.mem_map_of_mem hz), ?_⟩, z, hz, rfl, rfl⟩
    rwa [← count_map_congr h hz]
  · rintro y - x ⟨-, z, hz, rfl, rfl⟩ x' ⟨-, z', hz', rfl, hy⟩
    exact (h z hz z' hz').mpr hy.symm

/-- **Lists that repeat at the same places** have as many elements that occur so often. -/
theorem card_withCount_congr (h : ∀ z ∈ zs, ∀ z' ∈ zs, f z = f z' ↔ g z = g z') (p : ℕ → Prop) [DecidablePred p] :
    (withCount (zs.map f) p).card = (withCount (zs.map g) p).card :=
  le_antisymm (card_withCount_le h p) (card_withCount_le (fun z hz z' hz' => (h z hz z' hz').symm) p)

end Pattern

/-! ### Counts over a range -/

theorem sum_count_range (xs : List ℕ) (z n : ℕ) :
    ∑ i ∈ Finset.range n, xs.count (z + i) = xs.countP fun x => z ≤ x ∧ x < z + n := by
  induction xs with
  | nil => simp
  | cons x xs ih =>
    simp only [List.count_cons, List.countP_cons, Finset.sum_add_distrib, ih, beq_iff_eq, decide_eq_true_eq]
    congr 1
    by_cases h : z ≤ x ∧ x < z + n
    · rw [if_pos h, Finset.sum_eq_single (x - z)]
      · rw [if_pos (by omega)]
      · exact fun i _ hi => if_neg (by omega)
      · exact fun hi => absurd (Finset.mem_range.mpr (by omega)) hi
    · rw [if_neg h]
      exact Finset.sum_eq_zero fun i hi => if_neg (by have := Finset.mem_range.mp hi; omega)

/-- The counts over a range add up to the length exactly if the range has all the elements. -/
theorem sum_count_range_eq_length {xs : List ℕ} {z n : ℕ} :
    ∑ i ∈ Finset.range n, xs.count (z + i) = xs.length ↔ ∀ x ∈ xs, z ≤ x ∧ x < z + n := by
  rw [sum_count_range, List.countP_eq_length]
  simp only [decide_eq_true_eq]

end Occur
