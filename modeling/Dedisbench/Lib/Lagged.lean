import Mathlib.Data.Fintype.Pigeonhole
import Mathlib.Data.Finite.Prod
import Mathlib.Data.Nat.ModEq

/-!
# Recurrences with lags

In a sequence with lags every word is made of some of the `order` words before it.  The first words decide the others
(`Follows.eq_of_window`).  If the oldest of the words that a word is made of can be told from it and the rest, any
`order` words decide the earlier ones, too (`Reversible.eq_of_window`), and over a finite set of words the sequence
comes back to its start (`Reversible.exists_period`).

A generator keeps the last words in memory.  `Held` says where; a step writes the next word to a cell that holds none
of the words that are still needed (`Held.push`).
-/

namespace Lagged

variable {ι α P : Type*}

/-- A recurrence: the word at `i + order` is made of the words at `i + lag j`. -/
structure Recurrence (ι α : Type*) where
  order : ℕ
  lag : ι → ℕ
  rule : (ι → α) → α
  lag_lt : ∀ j, lag j < order

namespace Recurrence

variable (R : Recurrence ι α) {w w' : ℕ → α} {k : ℕ}

/-- A sequence that keeps to the recurrence. -/
def Follows (w : ℕ → α) : Prop := ∀ i, w (i + R.order) = R.rule fun j => w (i + R.lag j)

/-- The sequence that starts with the words of `init`. -/
def extend (init : ℕ → α) (i : ℕ) : α :=
  if i < R.order then init i else R.rule fun j => extend init (i - R.order + R.lag j)
termination_by i
decreasing_by
  have := R.lag_lt j
  omega

variable {R}

theorem extend_of_lt {init : ℕ → α} {i : ℕ} (h : i < R.order) : R.extend init i = init i := by
  rw [extend, if_pos h]

theorem follows_extend (init : ℕ → α) : R.Follows (R.extend init) := by
  intro i
  rw [extend, if_neg (by omega), Nat.add_sub_cancel]

theorem Follows.shift (h : R.Follows w) (k : ℕ) : R.Follows fun i => w (k + i) := by
  intro i
  have hnext := h (k + i)
  simp only [Nat.add_assoc] at hnext
  exact hnext

/-- **Words in a row decide all that follow.** -/
theorem Follows.eq_of_window (h : R.Follows w) (h' : R.Follows w') (hk : ∀ i < R.order, w (k + i) = w' (k + i))
    (i : ℕ) : w (k + i) = w' (k + i) := by
  induction i using Nat.strong_induction_on with
  | _ i ih =>
    rcases Nat.lt_or_ge i R.order with hlt | hge
    · exact hk i hlt
    · have hi : k + i = k + (i - R.order) + R.order := by omega
      rw [hi, h, h']
      congr 1
      funext j
      have hj := R.lag_lt j
      rw [Nat.add_assoc]
      exact ih _ (by omega)

/-! ### Going back -/

/-- The word at the tap `j₀`, the oldest one, can be told from the next word and the words at the other taps. -/
structure Reversible (R : Recurrence ι α) (j₀ : ι) : Prop where
  lag_zero : R.lag j₀ = 0
  lag_pos : ∀ j, j ≠ j₀ → 0 < R.lag j
  injective : ∀ t t' : ι → α, (∀ j, j ≠ j₀ → t j = t' j) → R.rule t = R.rule t' → t j₀ = t' j₀

namespace Reversible

variable {j₀ : ι} (hR : R.Reversible j₀)
include hR

/-- One word back. -/
theorem pred (h : R.Follows w) (h' : R.Follows w') (hk : ∀ i < R.order, w (k + 1 + i) = w' (k + 1 + i)) :
    w k = w' k := by
  have hpos : 0 < R.order := lt_of_le_of_lt (Nat.zero_le _) (R.lag_lt j₀)
  have hnext := hk (R.order - 1) (by omega)
  rw [show k + 1 + (R.order - 1) = k + R.order by omega, h, h'] at hnext
  have hback := hR.injective _ _ (fun j hj => ?_) hnext
  · simpa only [hR.lag_zero, Nat.add_zero] using hback
  · have hj0 := hR.lag_pos j hj
    have hj1 := R.lag_lt j
    have hword := hk (R.lag j - 1) (by omega)
    rwa [show k + 1 + (R.lag j - 1) = k + R.lag j by omega] at hword

/-- **Words in a row decide all the others**, before and after. -/
theorem eq_of_window (h : R.Follows w) (h' : R.Follows w') (hk : ∀ i < R.order, w (k + i) = w' (k + i)) :
    w = w' := by
  induction k with
  | zero =>
    funext i
    simpa only [Nat.zero_add] using h.eq_of_window h' hk i
  | succ k ih =>
    apply ih
    intro i hi
    rcases Nat.eq_zero_or_pos i with rfl | hpos
    · exact hR.pred h h' hk
    · have hword := hk (i - 1) (by omega)
      rwa [show k + 1 + (i - 1) = k + i by omega] at hword

/-- A word that repeats itself, and stands `order` times in a row, stands everywhere. -/
theorem eq_const {a : α} (ha : R.rule (fun _ => a) = a) (h : R.Follows w) (hk : ∀ i < R.order, w (k + i) = a)
    (i : ℕ) : w i = a := by
  have hconst : R.Follows fun _ => a := fun _ => ha.symm
  exact congrFun (hR.eq_of_window h hconst hk) i

/-- **The sequence comes back to its start**, and from there on repeats itself. -/
theorem exists_period [Finite α] (h : R.Follows w) : ∃ p > 0, ∀ i, w (i + p) = w i := by
  -- two of the windows of `order` words are the same
  obtain ⟨m, n, hmn, hwin⟩ := Finite.exists_ne_map_eq_of_infinite fun k : ℕ => fun i : Fin R.order => w (k + i)
  wlog hlt : m < n generalizing m n
  · exact this n m hmn.symm hwin.symm (lt_of_le_of_ne (not_lt.mp hlt) hmn.symm)
  refine ⟨n - m, Nat.sub_pos_of_lt hlt, fun i => ?_⟩
  have hshift : (fun i => w (n - m + i)) = w := by
    refine hR.eq_of_window (k := m) (h.shift _) h fun i hi => ?_
    rw [show n - m + (m + i) = n + i by omega]
    exact (congrFun hwin ⟨i, hi⟩).symm
  rw [Nat.add_comm]
  exact congrFun hshift i

end Reversible

end Recurrence

/-! ### The words in memory -/

/-- Words in a row. -/
def window (w : ℕ → α) (base len : ℕ) : List α := (List.range len).map fun j => w (base + j)

@[simp] theorem length_window (w : ℕ → α) (base len : ℕ) : (window w base len).length = len := by simp [window]

theorem getElem?_window (w : ℕ → α) (base : ℕ) {len j : ℕ} (h : j < len) :
    (window w base len)[j]? = some (w (base + j)) := by
  rw [window, List.getElem?_map, List.getElem?_range h, Option.map_some]

/-- A list is a window if it has its length and its words. -/
theorem eq_window {w : ℕ → α} {base len : ℕ} {l : List α} (hlen : l.length = len)
    (h : ∀ j < len, l[j]? = some (w (base + j))) : l = window w base len := by
  apply List.ext_getElem?
  intro j
  rcases Nat.lt_or_ge j len with hlt | hge
  · rw [h j hlt, getElem?_window w base hlt]
  · rw [List.getElem?_eq_none (hlen ▸ hge), List.getElem?_eq_none (by rwa [length_window])]

theorem window_append (w : ℕ → α) (base len len' : ℕ) :
    window w base (len + len') = window w base len ++ window w (base + len) len' := by
  rw [window, List.range_add, List.map_append, List.map_map]
  congr 1
  apply List.map_congr_left
  intro j _
  exact congrArg w (Nat.add_assoc base len j).symm

/-- The words from `a` on, up to `b`, are in memory: the word at `t` in the cell `loc t`. -/
def Held (loc : ℕ → P) (w : ℕ → α) (a b : ℕ) (mem : P → Option α) : Prop :=
  ∀ t, a ≤ t → t < b → mem (loc t) = some (w t)

/-- **A step**: the next word is written to a cell that none of the words still needed is in. -/
theorem Held.push {loc : ℕ → P} {w : ℕ → α} {mem mem' : P → Option α} {a a' b : ℕ} (h : Held loc w a b mem)
    (ha : a ≤ a') (hapart : ∀ t, a' ≤ t → t < b → loc t ≠ loc b) (hkeep : ∀ p, p ≠ loc b → mem' p = mem p)
    (hnew : mem' (loc b) = some (w b)) : Held loc w a' (b + 1) mem' := by
  intro t hat htb
  rcases Nat.lt_succ_iff_lt_or_eq.mp htb with hlt | rfl
  · rw [hkeep _ (hapart t hat hlt)]
    exact h t (ha.trans hat) hlt
  · exact hnew

/-- In a ring of `n` cells, `n` words in a row are apart. -/
theorem ring_apart {n k t : ℕ} (ht : k < t) (htn : t < k + n) : t % n ≠ (k + n) % n := by
  rw [Nat.add_mod_right]
  intro h
  have hdvd : n ∣ t - k := (Nat.modEq_iff_dvd' ht.le).mp (Eq.symm h)
  exact absurd (Nat.le_of_dvd (Nat.sub_pos_of_lt ht) hdvd) (by omega)

end Lagged
