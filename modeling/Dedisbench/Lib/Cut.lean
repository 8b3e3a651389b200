import Mathlib.Data.List.Basic
import Mathlib.Algebra.Order.Group.Nat
import Mathlib.Tactic.Ring.RingNF

/-!
# Cutting a sequence at the multiples of a length

`cut b l` are the whole blocks of length `b` in `l`, and `reads n l` is `l` cut into pieces of length
`n`, the last one shorter.  To cut every piece on its own (`cutReads`) gives the blocks of the whole
sequence exactly when `b` divides `n` or the first piece holds all the blocks there are
(`cutReads_eq_cut_iff`).
-/

namespace Cut

variable {α : Type*}

/-- The whole blocks of length `b`: the `i`-th is what stands at `i * b`. -/
def cut (b : ℕ) (l : List α) : List (List α) :=
  (List.range (l.length / b)).map fun i => (l.drop (i * b)).take b

theorem length_cut (b : ℕ) (l : List α) : (cut b l).length = l.length / b := by
  rw [cut, List.length_map, List.length_range]

theorem getElem?_cut {b i : ℕ} {l : List α} (h : i < l.length / b) :
    (cut b l)[i]? = some ((l.drop (i * b)).take b) := by
  rw [cut, List.getElem?_map, List.getElem?_range h, Option.map_some]

theorem cut_of_length_lt {b : ℕ} {l : List α} (h : l.length < b) : cut b l = [] := by
  rw [cut, Nat.div_eq_of_lt h, List.range_zero, List.map_nil]

theorem cut_nil {b : ℕ} (hb : 0 < b) : cut b ([] : List α) = [] := cut_of_length_lt hb

/-- The first block comes off. -/
theorem cut_cons {b : ℕ} {l : List α} (hb : 0 < b) (h : b ≤ l.length) : cut b l = l.take b :: cut b (l.drop b) := by
  have hlen : l.length / b = (l.drop b).length / b + 1 := by
    rw [List.length_drop, Nat.div_eq_sub_div hb h]
  rw [cut, hlen, List.range_succ_eq_map, List.map_cons, List.map_map, cut]
  congr 1
  · simp
  · apply List.map_congr_left
    intro i _
    rw [Function.comp_apply, List.drop_drop, Nat.succ_mul, Nat.add_comm]

/-- A sequence of whole blocks in front is cut on its own. -/
theorem cut_append {b : ℕ} {l m : List α} (hb : 0 < b) (h : b ∣ l.length) : cut b (l ++ m) = cut b l ++ cut b m := by
  obtain ⟨n, hn⟩ := h
  induction n generalizing l with
  | zero =>
    rw [List.eq_nil_of_length_eq_zero hn, List.nil_append, cut_nil hb, List.nil_append]
  | succ n ih =>
    have hle : b ≤ l.length := by
      rw [hn]
      exact Nat.le_mul_of_pos_right b (Nat.succ_pos n)
    have hdrop : (l.drop b).length = b * n := by
      rw [List.length_drop, hn, Nat.mul_succ, Nat.add_sub_cancel]
    rw [cut_cons hb hle, cut_cons hb (by rw [List.length_append]; omega), List.take_append_of_le_length hle,
      List.drop_append_of_le_length hle, ih hdrop, List.cons_append]

/-- What is cut off behind the last whole block does not matter. -/
theorem cut_take {b n : ℕ} {l : List α} (hb : 0 < b) (h : l.length / b ≤ n / b) : cut b (l.take n) = cut b l := by
  rcases Nat.lt_or_ge n l.length with hn | hn
  · have hlen : (l.take n).length / b = l.length / b := by
      rw [List.length_take, Nat.min_eq_left hn.le]
      exact le_antisymm (Nat.div_le_div_right hn.le) h
    rw [cut, hlen, cut]
    apply List.map_congr_left
    intro i hi
    have hi : i < n / b := lt_of_lt_of_le (List.mem_range.mp hi) h
    have hib : i * b + b ≤ n := by
      calc i * b + b = (i + 1) * b := (Nat.succ_mul i b).symm
        _ ≤ n / b * b := Nat.mul_le_mul_right b hi
        _ ≤ n := Nat.div_mul_le_self n b
    rw [List.drop_take, List.take_take, Nat.min_eq_left (by omega)]
  · rw [List.take_of_length_le hn]

/-! ### Reads -/

/-- The pieces of length `n`, the last one shorter. -/
def reads (n : ℕ) (hn : 0 < n) (l : List α) : List (List α) :=
  if _h : l.length = 0 then [] else l.take n :: reads n hn (l.drop n)
termination_by l.length
decreasing_by
  rw [List.length_drop]
  omega

theorem length_le_of_mem_reads {n : ℕ} {hn : 0 < n} {l piece : List α} (h : piece ∈ reads n hn l) :
    piece.length ≤ l.length := by
  generalize hk : l.length = k
  induction k using Nat.strong_induction_on generalizing l with
  | _ k ih =>
    rw [reads] at h
    split at h
    next => exact absurd h List.not_mem_nil
    next hl =>
      rcases List.mem_cons.mp h with rfl | h
      · rw [List.length_take, ← hk]
        exact Nat.min_le_right _ _
      · have hdrop := ih (l.drop n).length (by rw [List.length_drop]; omega) h rfl
        rw [List.length_drop] at hdrop
        omega

/-- The blocks of every piece. -/
def cutReads (n : ℕ) (hn : 0 < n) (b : ℕ) (l : List α) : List (List α) := (reads n hn l).flatMap (cut b)

variable {n b : ℕ} (hn : 0 < n) {l : List α}

theorem cutReads_nil : cutReads n hn b ([] : List α) = [] := by
  rw [cutReads, reads]
  rfl

theorem cutReads_eq_append (hl : l ≠ []) : cutReads n hn b l = cut b (l.take n) ++ cutReads n hn b (l.drop n) := by
  rw [cutReads, reads, dif_neg (mt List.eq_nil_of_length_eq_zero hl), List.flatMap_cons, cutReads]

/-- **Blocks that fill the reads.** -/
theorem cutReads_of_dvd (hb : 0 < b) (h : b ∣ n) (l : List α) : cutReads n hn b l = cut b l := by
  generalize hk : l.length = k
  induction k using Nat.strong_induction_on generalizing l with
  | _ k ih =>
    rcases eq_or_ne l [] with rfl | hl
    · rw [cutReads_nil, cut_nil hb]
    · have hpos := List.length_pos_iff.mpr hl
      rw [cutReads_eq_append hn hl, ih (l.drop n).length (by rw [List.length_drop]; omega) _ rfl]
      rcases Nat.le_total n l.length with hle | hle
      · rw [← cut_append hb (by rwa [List.length_take, Nat.min_eq_left hle]), List.take_append_drop]
      · rw [List.take_of_length_le hle, List.drop_of_length_le hle, cut_nil hb, List.append_nil]

/-- **Blocks that are all in the first read.** -/
theorem cutReads_of_div_le (hb : 0 < b) (h : l.length / b ≤ n / b) : cutReads n hn b l = cut b l := by
  rcases eq_or_ne l [] with rfl | hl
  · rw [cutReads_nil, cut_nil hb]
  · -- behind the first read there is less than a block
    have hrest : (l.drop n).length < b := by
      have hlt : l.length < (l.length / b + 1) * b := Nat.lt_mul_of_div_lt (Nat.lt_succ_self _) hb
      have hle : (l.length / b + 1) * b ≤ n + b := by
        calc (l.length / b + 1) * b ≤ (n / b + 1) * b := Nat.mul_le_mul_right b (Nat.succ_le_succ h)
          _ = n / b * b + b := Nat.succ_mul _ _
          _ ≤ n + b := Nat.add_le_add_right (Nat.div_mul_le_self n b) b
      rw [List.length_drop]
      omega
    have hnone : cutReads n hn b (l.drop n) = [] := by
      rw [cutReads, List.flatMap_eq_nil_iff]
      intro piece hpiece
      exact cut_of_length_lt (lt_of_le_of_lt (length_le_of_mem_reads hpiece) hrest)
    rw [cutReads_eq_append hn hl, hnone, List.append_nil, cut_take hb h]

theorem mem_of_mem_cut {block : List α} {a : α} (hblock : block ∈ cut b l) (ha : a ∈ block) : a ∈ l := by
  rw [cut, List.mem_map] at hblock
  rcases hblock with ⟨i, -, rfl⟩
  exact List.mem_of_mem_drop (List.mem_of_mem_take ha)

theorem mem_of_mem_cutReads {block : List α} {a : α} (hblock : block ∈ cutReads n hn b l) (ha : a ∈ block) :
    a ∈ l := by
  generalize hk : l.length = k
  induction k using Nat.strong_induction_on generalizing l with
  | _ k ih =>
    rcases eq_or_ne l [] with rfl | hl
    · rw [cutReads_nil] at hblock
      exact absurd hblock List.not_mem_nil
    · have hpos := List.length_pos_iff.mpr hl
      rw [cutReads_eq_append hn hl, List.mem_append] at hblock
      rcases hblock with hblock | hblock
      · exact List.mem_of_mem_take (mem_of_mem_cut hblock ha)
      · exact List.mem_of_mem_drop
          (ih (l.drop n).length (by rw [List.length_drop]; omega) hblock rfl)

/-- A mark on the block that straddles the end of the first read is in no block that is cut. -/
theorem cutReads_ne_cut {x y : α} (hxy : x ≠ y) {len : ℕ} (hb : 0 < b) (hdvd : ¬ b ∣ n) (h : n / b < len / b) :
    cutReads n hn b ((List.replicate len y).set (n / b * b) x) ≠ cut b ((List.replicate len y).set (n / b * b) x) := by
  set q := n / b with hq
  set l := (List.replicate len y).set (q * b) x with hl
  have hlen : l.length = len := by rw [hl, List.length_set, List.length_replicate]
  have hqn : q * b < n := by
    apply lt_of_le_of_ne (Nat.div_mul_le_self n b)
    exact fun heq => hdvd ⟨q, by rw [← heq, Nat.mul_comm]⟩
  have hqlen : q * b + b ≤ len := by
    calc q * b + b = (q + 1) * b := (Nat.succ_mul q b).symm
      _ ≤ len / b * b := Nat.mul_le_mul_right b h
      _ ≤ len := Nat.div_mul_le_self len b
  have hnlen : n ≤ len := by
    have : n < (q + 1) * b := Nat.lt_mul_of_div_lt (Nat.lt_succ_self _) hb
    rw [Nat.succ_mul] at this
    omega
  have hne : l ≠ [] := by
    intro hnil
    rw [hnil, List.length_nil] at hlen
    omega
  intro heq
  -- the block of the whole sequence that holds the mark
  have hblock : (cut b l)[q]? = some ((l.drop (q * b)).take b) := getElem?_cut (by rwa [hlen])
  have hx : x ∈ (l.drop (q * b)).take b := by
    have hget : (l.drop (q * b))[0]? = some x := by
      rw [List.getElem?_drop, Nat.add_zero, hl, List.getElem?_set_self (by rw [List.length_replicate]; omega)]
    apply List.mem_of_getElem? (i := 0)
    rw [List.getElem?_take_of_lt hb, hget]
  -- it is not of the first read, which has `q` blocks, and so it is of a later one
  rw [← heq, cutReads_eq_append hn hne, List.getElem?_append_right] at hblock
  · have hmem := mem_of_mem_cutReads hn (List.mem_of_getElem? hblock) hx
    rw [List.mem_iff_getElem?] at hmem
    obtain ⟨i, hi⟩ := hmem
    rw [List.getElem?_drop, hl, List.getElem?_set_ne (by omega), List.getElem?_replicate] at hi
    split at hi
    · exact hxy (Option.some.inj hi).symm
    · cases hi
  · rw [length_cut, List.length_take, hlen, Nat.min_eq_left hnlen]

/-- **When the blocks of the reads are the blocks of the sequence**, for every sequence of a length. -/
theorem cutReads_eq_cut_iff [Nontrivial α] (hb : 0 < b) (len : ℕ) :
    (∀ l : List α, l.length = len → cutReads n hn b l = cut b l) ↔ b ∣ n ∨ len / b ≤ n / b := by
  constructor
  · intro h
    by_contra hneg
    rw [not_or, not_le] at hneg
    obtain ⟨x, y, hxy⟩ := exists_pair_ne α
    exact cutReads_ne_cut hn hxy hb hneg.1 hneg.2 (h _ (by rw [List.length_set, List.length_replicate]))
  · rintro (h | h) l rfl
    · exact cutReads_of_dvd hn hb h l
    · exact cutReads_of_div_le hn hb h

end Cut
