import Mathlib.Algebra.BigOperators.Group.List.Basic
import Mathlib.Algebra.Order.BigOperators.Group.List
import Mathlib.Tactic.Ring

/-!
# Consecutive spans

A list of lengths cuts the numbers `1 .. sum` into consecutive spans: the `i`-th is what lies after
`start ns i` up to `start ns i + ns[i]`.  Every number is in a span (`exists_span`), in one only
(`span_unique`), and no span leaves the whole (`span_le`).
-/

namespace Spans

/-- Where the `i`-th span begins: what the lengths before it add up to. -/
def start (ns : List ℕ) (i : ℕ) : ℕ := (ns.take i).sum

@[simp] theorem start_zero (ns : List ℕ) : start ns 0 = 0 := rfl

@[simp] theorem start_cons_succ (n : ℕ) (ns : List ℕ) (i : ℕ) : start (n :: ns) (i + 1) = n + start ns i := by
  simp [start]

theorem start_succ {ns : List ℕ} {i n : ℕ} (h : ns[i]? = some n) : start ns (i + 1) = start ns i + n := by
  rw [start, List.take_add_one, List.sum_append, h]
  simp [start]

theorem start_mono {ns : List ℕ} {i j : ℕ} (h : i ≤ j) : start ns i ≤ start ns j := by
  obtain ⟨k, rfl⟩ := Nat.exists_eq_add_of_le h
  rw [start, start, List.take_add, List.sum_append]
  exact Nat.le_add_right _ _

theorem start_le_sum (ns : List ℕ) (i : ℕ) : start ns i ≤ ns.sum := by
  conv_rhs => rw [← List.take_append_drop i ns, List.sum_append]
  exact Nat.le_add_right _ _

theorem start_append {ns ns' : List ℕ} {i : ℕ} (h : i ≤ ns.length) : start (ns ++ ns') i = start ns i := by
  rw [start, start, List.take_append_of_le_length h]

theorem span_le {ns : List ℕ} {i n : ℕ} (h : ns[i]? = some n) : start ns i + n ≤ ns.sum := by
  rw [← start_succ h]
  exact start_le_sum ns (i + 1)

/-- **Every number of the whole is in a span.** -/
theorem exists_span {ns : List ℕ} : ∀ {x : ℕ}, 0 < x → x ≤ ns.sum →
    ∃ i n, ns[i]? = some n ∧ start ns i < x ∧ x ≤ start ns i + n := by
  induction ns with
  | nil =>
    intro x h0 h
    simp at h
    omega
  | cons m ns ih =>
    intro x h0 h
    rw [List.sum_cons] at h
    by_cases hx : x ≤ m
    · exact ⟨0, m, rfl, h0, by simpa using hx⟩
    · obtain ⟨i, n, hi, hlo, hhi⟩ := ih (x := x - m) (by omega) (by omega)
      refine ⟨i + 1, n, hi, ?_, ?_⟩
      · rw [start_cons_succ]; omega
      · rw [start_cons_succ]; omega

/-- A span ends before a later one begins. -/
theorem span_le_start {ns : List ℕ} {i j n : ℕ} (hi : ns[i]? = some n) (h : i < j) :
    start ns i + n ≤ start ns j := by
  rw [← start_succ hi]
  exact start_mono h

/-- **A number is in one span only.** -/
theorem span_unique {ns : List ℕ} {i j m n x : ℕ} (hi : ns[i]? = some m) (hj : ns[j]? = some n)
    (hix : start ns i < x ∧ x ≤ start ns i + m) (hjx : start ns j < x ∧ x ≤ start ns j + n) : i = j := by
  rcases Nat.lt_trichotomy i j with h | h | h
  · have := span_le_start hi h
    omega
  · exact h
  · have := span_le_start hj h
    omega

end Spans
