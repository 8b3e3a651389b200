import Dedisbench.Generator.Ids
import Mathlib.Algebra.Order.BigOperators.Group.List
import Mathlib.Algebra.Order.Floor.Semiring
import Mathlib.Data.Rat.Floor
import Mathlib.Order.Interval.Finset.Nat
import Mathlib.Tactic.Positivity

/-!
# The shares of the compression classes

`giveMyCompression` looks for the first class whose percentages, added up from the first, reach the percentage at which
a position lies in its line.  Computed with exact numbers, the classes up to `k` take the first positions of the line,
and as many as their percentages ask for, rounded down (`compression_shares`).
-/

namespace Dedisbench

open ExceptRun

instance : Arith ℚ := ⟨fun n => n, (· + ·), (· * ·), (· / ·), fun x y => decide (x ≤ y)⟩

/-- The percentages of the classes up to `k`, together. -/
def Linha.share (l : Linha ℚ) (k : ℕ) : ℚ := (l.compression.take (k + 1)).sum

/-- The number of positions that the classes up to `k` ask for. -/
def Linha.quota (l : Linha ℚ) (k : ℕ) : ℕ := ⌊l.nrBlocks * l.share k / 100⌋₊

/-- The positions of the classes up to `k`. -/
def Linha.upTo (l : Linha ℚ) (k : ℕ) : Finset ℕ :=
  (Finset.Icc 1 l.nrBlocks).filter fun r => okWith (giveMyCompression l r) fun c => c ≤ k

section Shares

variable {l : Linha ℚ} {cs : List ℚ} {p : ℚ} {n c k r r' c' : ℕ}

theorem sum_take_mono (hcs : ∀ x ∈ cs, 0 ≤ x) {i j : ℕ} (h : i ≤ j) : (cs.take i).sum ≤ (cs.take j).sum :=
  (List.take_sublist_take_left h).sum_le_sum fun x hx => hcs x (List.mem_of_mem_take hx)

theorem compressionLoop_ge : ∀ {n : ℕ} {aux : ℚ}, n ≤ 10 → compressionLoop cs p n aux = .ok c → 10 - n ≤ c ∨ c = 9 := by
  intro n
  induction n with
  | zero =>
    intro aux _ h
    cases h
    exact .inr rfl
  | succ n ih =>
    intro aux hn h
    simp only [compressionLoop, bind_eq_ok] at h
    obtain ⟨x, -, h⟩ := h
    split at h
    · cases h
      exact .inl (by omega)
    · rcases ih (by omega) h with hge | h9
      · exact .inl (by omega)
      · exact .inr h9

/-- The loop stops at the first class whose percentages reach `p`. -/
theorem compressionLoop_le_iff (hcs : ∀ x ∈ cs, 0 ≤ x) (hk : k < 9) : ∀ {n : ℕ}, n ≤ 10 → 10 - n ≤ k →
    compressionLoop cs p n (cs.take (10 - n)).sum = .ok c → (c ≤ k ↔ p ≤ (cs.take (k + 1)).sum) := by
  intro n
  induction n with
  | zero =>
    intro _ hle
    omega
  | succ n ih =>
    intro hn hle h
    simp only [compressionLoop, bind_eq_ok] at h
    obtain ⟨x, hx, h⟩ := h
    have hget : cs[9 - n]? = some x := vecAt_eq_ok.mp hx
    have hsum : Arith.add (cs.take (10 - (n + 1))).sum x = (cs.take (10 - n)).sum := by
      rw [show 10 - n = 9 - n + 1 by omega, List.take_add_one, hget, List.sum_append,
        show 10 - (n + 1) = 9 - n by omega]
      simp [Arith.add]
    rw [hsum] at h
    split at h
    next hreach =>
      cases h
      have hp : p ≤ (cs.take (10 - n)).sum := of_decide_eq_true hreach
      exact ⟨fun _ => hp.trans (sum_take_mono hcs (by omega)), fun _ => by omega⟩
    next hreach =>
      have hp : ¬ p ≤ (cs.take (10 - n)).sum := fun hp => hreach (decide_eq_true hp)
      rcases Nat.eq_or_lt_of_le hle with heq | hlt
      · -- this is class `k`, and it is passed by
        have hc : ¬ c ≤ k := by
          rcases compressionLoop_ge (by omega) h with hge | rfl <;> omega
        rw [show k + 1 = 10 - n by omega]
        exact ⟨fun hck => absurd hck hc, fun hpk => absurd hpk hp⟩
      · exact ih (by omega) (by omega) h

/-- A position is of the classes up to `k` exactly if it is one of the first that they ask for. -/
theorem giveMyCompression_le_iff (hn : 1 ≤ l.nrBlocks) (hc : ∀ x ∈ l.compression, 0 ≤ x) (hk : k < 9)
    (h : giveMyCompression l r = .ok c) : c ≤ k ↔ r ≤ l.quota k := by
  have hpos : (0 : ℚ) < l.nrBlocks := by exact_mod_cast hn
  have hshare : 0 ≤ l.share k := List.sum_nonneg fun x hx => hc x (List.mem_of_mem_take hx)
  have hloop : compressionLoop l.compression ((r : ℚ) / l.nrBlocks * 100) 10 (l.compression.take (10 - 10)).sum =
      .ok c := by
    simpa [giveMyCompression, Arith.ofNat, Arith.mul, Arith.div] using h
  rw [compressionLoop_le_iff hc hk le_rfl (by omega) hloop, Linha.quota, Nat.le_floor_iff (by positivity),
    le_div_iff₀ (by norm_num), div_mul_eq_mul_div, div_le_iff₀ hpos, mul_comm _ (l.nrBlocks : ℚ)]
  rfl

theorem Linha.mem_upTo (hn : 1 ≤ l.nrBlocks) (hlen : 10 ≤ l.compression.length) (hc : ∀ x ∈ l.compression, 0 ≤ x)
    (hk : k < 9) : r ∈ l.upTo k ↔ 1 ≤ r ∧ r ≤ min l.nrBlocks (l.quota k) := by
  obtain ⟨c, -, hok⟩ := giveMyCompression_ok hlen r
  have hiff := giveMyCompression_le_iff hn hc hk hok
  rw [Linha.upTo, Finset.mem_filter, Finset.mem_Icc, hok]
  simp only [okWith, decide_eq_true_eq, hiff, le_min_iff, and_assoc]

/-- **The classes get their shares.**  Every position of a line has a class; the classes grow along the line; and those
up to `k` have as many positions as their percentages ask for, rounded down, or all of them; what they leave is of class
`9`. -/
theorem compression_shares (hn : 1 ≤ l.nrBlocks) (hlen : l.compression.length = 10)
    (hc : ∀ x ∈ l.compression, 0 ≤ x) :
    (∀ r, 1 ≤ r → r ≤ l.nrBlocks → ∃ c ≤ 9, giveMyCompression l r = .ok c) ∧
      (∀ r r' c c', 1 ≤ r → r ≤ r' → r' ≤ l.nrBlocks → giveMyCompression l r = .ok c →
        giveMyCompression l r' = .ok c' → c ≤ c') ∧
      (∀ k < 9, (l.upTo k).card = min l.nrBlocks (l.quota k)) ∧
      ∀ r, 1 ≤ r → r ≤ l.nrBlocks → r ∉ l.upTo 8 → giveMyCompression l r = .ok 9 := by
  refine ⟨fun r _ _ => giveMyCompression_ok hlen.ge r, fun r r' c c' _ hrr _ h h' => ?_, fun k hk => ?_,
    fun r h1 hr hnot => ?_⟩
  · by_contra hlt
    have hk : c' < 9 := (not_le.mp hlt).trans_le (giveMyCompression_le h)
    have hle := (giveMyCompression_le_iff hn hc hk h').mp le_rfl
    exact hlt ((giveMyCompression_le_iff hn hc hk h).mpr (hrr.trans hle))
  · have hset : l.upTo k = Finset.Icc 1 (min l.nrBlocks (l.quota k)) := by
      ext r
      rw [Linha.mem_upTo hn hlen.ge hc hk, Finset.mem_Icc]
    rw [hset, Nat.card_Icc, Nat.add_sub_cancel]
  · obtain ⟨c, hc9, hok⟩ := giveMyCompression_ok hlen.ge r
    have hlate : ¬ c ≤ 8 := by
      intro h8
      refine hnot (Finset.mem_filter.mpr ⟨Finset.mem_Icc.mpr ⟨h1, hr⟩, ?_⟩)
      rw [hok]
      exact decide_eq_true h8
    obtain rfl : c = 9 := by omega
    exact hok

end Shares

/-- Seven blocks, whose percentages do not add up to a hundred. -/
def sevenBlocks : Linha ℚ := ⟨1, 7, 0, [0, 30, 0, 0, 25 / 2, 0, 0, 0, 20, 0]⟩

theorem sevenBlocks_shares : (∀ k < 9, (sevenBlocks.upTo k).card = min 7 (sevenBlocks.quota k)) ∧
    giveMyCompression sevenBlocks 7 = .ok 9 := by
  have h := @compression_shares sevenBlocks (by decide) (by decide) (by decide +kernel)
  exact ⟨h.2.2.1, h.2.2.2 7 (by decide) (by decide) (by decide +kernel)⟩

end Dedisbench
