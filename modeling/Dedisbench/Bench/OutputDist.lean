import Mathlib.Algebra.BigOperators.Group.Finset.Piecewise
import Mathlib.Algebra.Order.BigOperators.Group.Finset
import Dedisbench.Bench.Defs
import Dedisbench.Scan.Counters

/-!
# The output distribution

`gen_outputdist` turns the statistics of a run into a distribution: a block counted once goes to
`zerodups`, a block counted more often to its number of duplicates, and `zerodups` is the count of
key zero.  So the distribution is the histogram of the statistics (`outputdist_histogram`).
-/

namespace Dedisbench

open Tally ExceptRun

/-- The shared memory, the print database and the lines of the file `headerdist`: a block id and how
often it was counted. -/
structure OutputState where
  shared : Shared
  dbpor : PrintDb
  headerdist : List (ℕ × ℕ)

/-- A number added to the count of a key: `get_db_print`, then `put_db_print`. -/
def addDbPrint (db : PrintDb) (ndups n : UInt64) : PrintDb :=
  match getDbPrint db ndups with
  | none => putDbPrint db ndups n
  | some cont => putDbPrint db ndups (cont + n)

/-- One round of the loop of `gen_outputdist`.  `zerodups` is not one of the counters it reads. -/
def outputdistStep (info : DuplicatesInfo) (s : OutputState) (i : ℕ) : Exec OutputState :=
  match s.shared.statistics[i]? with
  | none => .error .undefined
  | some n =>
    let line := (u64 (i + info.zeroCopyBlocks), n)
    if n = 1 then do
      let (shared, _) ← s.shared.count info.duplicatedBlocks
      .ok { s with shared, headerdist := s.headerdist ++ [line] }
    else if 1 < n then
      .ok { s with dbpor := addDbPrint s.dbpor (.ofNat (n - 1)) 1, headerdist := s.headerdist ++ [line] }
    else .ok s

/-- `gen_outputdist` -/
def genOutputdist (info : DuplicatesInfo) (shared : Shared) (dbpor : PrintDb) : Exec OutputState := do
  let s ← (List.range info.duplicatedBlocks).foldlM (outputdistStep info) ⟨shared, dbpor, []⟩
  match s.shared.statistics[info.duplicatedBlocks]? with
  | none => .error .undefined
  | some zerodups => .ok { s with dbpor := addDbPrint s.dbpor 0 (.ofNat zerodups) }

/-! ### The histogram -/

theorem addDbPrint_eq (db : PrintDb) (ndups n : UInt64) : addDbPrint db ndups n = add db ndups n := by
  simp only [addDbPrint, add, getDbPrint, dbGet]
  cases Finmap.lookup ndups db <;> rfl

section Histogram

variable {info : DuplicatesInfo} {stats : List ℕ} {z : ℕ} {contentMap : List BlockInfo}

/-- What the loop puts in the database for the counters `counted`. -/
def histogram (counted : List ℕ) : PrintDb :=
  tally UInt64 ((counted.filter fun n => 1 < n).map fun n => UInt64.ofNat (n - 1))

theorem histogram_concat (counted : List ℕ) (n : ℕ) :
    histogram (counted ++ [n]) = if 1 < n then add (histogram counted) (.ofNat (n - 1)) 1 else histogram counted := by
  unfold histogram
  split
  next h =>
    rw [List.filter_append, List.filter_cons_of_pos (by simpa using h), List.filter_nil, List.map_append,
      List.map_singleton, tally_concat]
  next h => rw [List.filter_append, List.filter_cons_of_neg (by simpa using h), List.filter_nil, List.append_nil]

/-- The lines of `headerdist` for the counters `counted`: those that are not zero, by block id. -/
def headerLines (info : DuplicatesInfo) (counted : List ℕ) : List (ℕ × ℕ) :=
  (counted.zipIdx.filter fun p => 1 ≤ p.1).map fun p => (u64 (p.2 + info.zeroCopyBlocks), p.1)

theorem headerLines_concat (info : DuplicatesInfo) (counted : List ℕ) (n : ℕ) :
    headerLines info (counted ++ [n]) = headerLines info counted ++
      if 1 ≤ n then [(u64 (counted.length + info.zeroCopyBlocks), n)] else [] := by
  rw [headerLines, headerLines, List.zipIdx_append, List.filter_append, List.map_append, List.zipIdx_singleton]
  congr 1
  split
  next h =>
    rw [List.filter_cons_of_pos (by simpa using h), List.filter_nil, List.map_singleton]
    simp
  next h => rw [List.filter_cons_of_neg (by simpa using h), List.filter_nil, List.map_nil]

/-- One round, at a counter that holds `n`. -/
theorem outputdistStep_eq {i n : ℕ} (hlen : stats.length = info.duplicatedBlocks) (hi : stats[i]? = some n) (z : ℕ)
    (contentMap : List BlockInfo) (db : PrintDb) (lines : List (ℕ × ℕ)) :
    outputdistStep info ⟨⟨stats ++ [z], contentMap⟩, db, lines⟩ i =
      .ok ⟨⟨stats ++ [if n = 1 then u64 (z + 1) else z], contentMap⟩,
        if 1 < n then add db (.ofNat (n - 1)) 1 else db,
        lines ++ if 1 ≤ n then [(u64 (i + info.zeroCopyBlocks), n)] else []⟩ := by
  have hlt : i < stats.length := (List.getElem?_eq_some_iff.mp hi).1
  have hn : (stats ++ [z])[i]? = some n := by rw [List.getElem?_append_left hlt, hi]
  have hz : (stats ++ [z])[info.duplicatedBlocks]? = some z := by
    rw [← hlen, List.getElem?_append_right le_rfl, Nat.sub_self, List.getElem?_cons_zero]
  rw [outputdistStep, hn]
  by_cases h1 : n = 1
  · subst h1
    have hset : (stats ++ [z]).set info.duplicatedBlocks (u64 (z + 1)) = stats ++ [u64 (z + 1)] := by
      rw [← hlen, List.set_append_right _ _ le_rfl, Nat.sub_self, List.set_cons_zero]
    simp only [Shared.count, hz, hset, if_true, bind_ok, lt_irrefl, if_false, le_rfl]
  · by_cases hlt1 : 1 < n
    · simp only [if_neg h1, if_pos hlt1, if_pos hlt1.le, addDbPrint_eq]
    · have h0 : ¬ 1 ≤ n := by omega
      simp only [if_neg h1, if_neg hlt1, if_neg h0, List.append_nil]

/-- The state of the loop after some of the counters. -/
theorem foldlM_outputdistStep (hlen : stats.length = info.duplicatedBlocks) (hz : z < 2 ^ 64)
    (contentMap : List BlockInfo) {m : ℕ} (hm : m ≤ stats.length) :
    (List.range m).foldlM (outputdistStep info) ⟨⟨stats ++ [z], contentMap⟩, ∅, []⟩ =
      .ok ⟨⟨stats ++ [u64 (z + (stats.take m).count 1)], contentMap⟩, histogram (stats.take m),
        headerLines info (stats.take m)⟩ := by
  induction m with
  | zero =>
    have hz' : u64 z = z := Nat.mod_eq_of_lt hz
    rw [List.take_zero, List.count_nil, Nat.add_zero, hz']
    rfl
  | succ m ih =>
    obtain ⟨n, hn⟩ : ∃ n, stats[m]? = some n := ⟨_, List.getElem?_eq_getElem (by omega)⟩
    have htake : stats.take (m + 1) = stats.take m ++ [n] := by rw [List.take_add_one, hn, Option.toList_some]
    have hlines := headerLines_concat info (stats.take m) n
    rw [List.length_take, Nat.min_eq_left (by omega)] at hlines
    rw [List.range_succ, foldlM_append_eq_ok]
    refine ⟨_, ih (by omega), ?_⟩
    rw [List.foldlM_cons, outputdistStep_eq hlen hn, bind_ok, htake, histogram_concat, hlines, List.count_append,
      List.count_singleton]
    by_cases h1 : n = 1
    · subst h1
      have hwrap : u64 (u64 (z + (stats.take m).count 1) + 1) = u64 (z + ((stats.take m).count 1 + 1)) := by
        simp [u64, Nat.add_assoc]
      simp only [if_true, beq_self_eq_true, hwrap]
      rfl
    · simp only [if_neg h1, beq_iff_eq, Nat.add_zero]
      rfl

/-- The database that `gen_outputdist` makes of the counters `stats` and of `zerodups`. -/
def outputDb (stats : List ℕ) (z : ℕ) : PrintDb := add (histogram stats) 0 (.ofNat (u64 (z + stats.count 1)))

/-- **What `gen_outputdist` makes of the counters**, on an empty database. -/
theorem genOutputdist_eq (hlen : stats.length = info.duplicatedBlocks) (hz : z < 2 ^ 64) :
    ∃ out, genOutputdist info ⟨stats ++ [z], contentMap⟩ ∅ = .ok out ∧
      out.dbpor = outputDb stats z ∧ out.headerdist = headerLines info stats := by
  have h := foldlM_outputdistStep hlen hz contentMap le_rfl
  rw [hlen, List.take_of_length_le hlen.le] at h
  have hlast : (stats ++ [u64 (z + stats.count 1)])[info.duplicatedBlocks]? = some (u64 (z + stats.count 1)) := by
    rw [← hlen, List.getElem?_append_right le_rfl, Nat.sub_self, List.getElem?_cons_zero]
  rw [genOutputdist, h, bind_ok, hlast]
  exact ⟨_, rfl, addDbPrint_eq _ _ _, rfl⟩

theorem count_histogram (hlt : ∀ n ∈ stats, n < 2 ^ 64) (k : UInt64) :
    ((stats.filter fun n => 1 < n).map fun n => UInt64.ofNat (n - 1)).count k =
      if k = 0 then 0 else stats.count (k.toNat + 1) := by
  rw [List.count, List.countP_map, List.countP_filter, List.count]
  split
  next hk =>
    subst hk
    rw [List.countP_eq_zero]
    intro n hn h
    have hn := hlt n hn
    simp only [Function.comp_apply, beq_iff_eq, Bool.and_eq_true, decide_eq_true_eq] at h
    have hzero := congrArg UInt64.toNat h.1
    rw [toNat_ofNat (by omega)] at hzero
    change n - 1 = 0 at hzero
    omega
  next hk =>
    have hpos : k.toNat ≠ 0 := fun h => hk (UInt64.toNat_inj.mp h)
    apply List.countP_congr
    intro n hn
    have hn := hlt n hn
    simp only [Function.comp_apply, beq_iff_eq, Bool.and_eq_true, decide_eq_true_eq]
    constructor
    · rintro ⟨rfl, h1⟩
      rw [toNat_ofNat (by omega)]
      omega
    · rintro rfl
      exact ⟨by simp, by omega⟩

/-- **What the database holds.** -/
theorem valueAt_outputDb (hlt : ∀ n ∈ stats, n < 2 ^ 64) (k : UInt64) :
    valueAt (outputDb stats z) k = .ofNat (if k = 0 then z + stats.count 1 else stats.count (k.toNat + 1)) := by
  rw [outputDb, valueAt_add, histogram, valueAt_tally_uint64, count_histogram hlt]
  split
  · apply UInt64.toNat_inj.mp
    simp [u64]
  · rw [add_zero]

/-- The counters that hold one block, and those that hold more. -/
theorem sum_eq_filter_add_count (stats : List ℕ) :
    stats.sum = (stats.filter fun n => 1 < n).sum + stats.count 1 := by
  induction stats with
  | nil => rfl
  | cons n stats ih =>
    rw [List.sum_cons, ih, List.count_cons]
    by_cases h : 1 < n
    · rw [List.filter_cons_of_pos (by simpa using h), List.sum_cons, if_neg (by simp; omega)]
      omega
    · rw [List.filter_cons_of_neg (by simpa using h)]
      split
      next h1 =>
        have h1 : n = 1 := by simpa using h1
        omega
      next h1 =>
        have h1 : n ≠ 1 := by simpa using h1
        omega

/-- **The blocks in the database**: those of the counters that hold more than one, and the new `zerodups`. -/
theorem sum_outputDb (hlen : stats.length < 2 ^ 64) (hlt : ∀ n ∈ stats, n < 2 ^ 64) (z : ℕ) :
    ∑ k ∈ (outputDb stats z).keys, (k.toNat + 1) * (valueAt (outputDb stats z) k).toNat =
      u64 (z + stats.count 1) + (stats.filter fun n => 1 < n).sum := by
  let big := (stats.filter fun n => 1 < n).map fun n => UInt64.ofNat (n - 1)
  have heq : ∀ k, (k.toNat + 1) * (valueAt (outputDb stats z) k).toNat =
      big.count k * (k.toNat + 1) + if k = 0 then u64 (z + stats.count 1) else 0 := by
    intro k
    rw [valueAt_outputDb hlt, count_histogram hlt]
    split
    next h =>
      subst h
      simp [u64]
    next h =>
      have hcount : stats.count (k.toNat + 1) < 2 ^ 64 := lt_of_le_of_lt List.count_le_length hlen
      rw [Nat.mul_comm, toNat_ofNat hcount]
      exact (Nat.add_zero _).symm
  have hkeys : ∀ k, k ∈ (outputDb stats z).keys ↔ k = 0 ∨ k ∈ big := fun k => by
    rw [Finmap.mem_keys, outputDb, mem_add, histogram, mem_tally]
  have hsubset : big.toFinset ⊆ (outputDb stats z).keys := fun k hk =>
    (hkeys k).mpr (.inr (List.mem_toFinset.mp hk))
  have hbig : ∑ k ∈ (outputDb stats z).keys, big.count k * (k.toNat + 1) = (stats.filter fun n => 1 < n).sum := by
    rw [← Finset.sum_subset hsubset fun k _ hk => by
      rw [List.count_eq_zero_of_not_mem fun h => hk (List.mem_toFinset.mpr h), Nat.zero_mul]]
    have hmap : (big.map fun k => k.toNat + 1).sum = ∑ k ∈ big.toFinset, big.count k * (k.toNat + 1) :=
      Finset.sum_list_map_count big fun k => k.toNat + 1
    rw [← hmap, List.map_map]
    congr 1
    conv_rhs => rw [← List.map_id (stats.filter fun n => 1 < n)]
    apply List.map_congr_left
    intro n hn
    obtain ⟨hmem, h1⟩ := List.mem_filter.mp hn
    have h1 : 1 < n := of_decide_eq_true h1
    have hn := hlt n hmem
    rw [Function.comp_apply, toNat_ofNat (by omega)]
    simp only [id_eq]
    omega
  rw [Finset.sum_congr rfl fun k _ => heq k, Finset.sum_add_distrib, hbig, Finset.sum_ite_eq',
    if_pos ((hkeys 0).mpr (.inl rfl)), Nat.add_comm]

/-- The database counts no more blocks than the counters do. -/
theorem sum_outputDb_le (hlen : stats.length < 2 ^ 64) (hlt : ∀ n ∈ stats, n < 2 ^ 64) (z : ℕ) :
    ∑ k ∈ (outputDb stats z).keys, (k.toNat + 1) * (valueAt (outputDb stats z) k).toNat ≤ stats.sum + z := by
  have hmod := Nat.mod_le (z + stats.count 1) (2 ^ 64)
  rw [sum_outputDb hlen hlt, sum_eq_filter_add_count stats, u64]
  omega

theorem mem_outputDb (hlt : ∀ n ∈ stats, n < 2 ^ 64) (z : ℕ) (k : UInt64) :
    k ∈ outputDb stats z ↔ k = 0 ∨ k.toNat + 1 ∈ stats := by
  have hcount : k ∈ (stats.filter fun n => 1 < n).map (fun n => UInt64.ofNat (n - 1)) ↔
      k ≠ 0 ∧ k.toNat + 1 ∈ stats := by
    rw [← List.count_pos_iff, count_histogram hlt]
    split
    next h => simp [h]
    next h => simp [h, List.count_pos_iff]
  rw [outputDb, mem_add, histogram, mem_tally, hcount]
  by_cases h : k = 0
  · simp [h]
  · simp [h]

/-- **`gen_outputdist` is the histogram of the counters**, on an empty database: the counters that hold one block are
added to `zerodups`, which is the value of key zero, the number of those that hold `k + 1` is the value of key `k`,
and `headerdist` lists the counters that are not zero.  The sum for key zero is taken modulo `2 ^ 64`. -/
theorem outputdist_histogram (hlen : stats.length = info.duplicatedBlocks) (hdup : info.duplicatedBlocks < 2 ^ 64)
    (hlt : ∀ n ∈ stats, n < 2 ^ 64) (hz : z < 2 ^ 64) :
    ∃ out, genOutputdist info ⟨stats ++ [z], contentMap⟩ ∅ = .ok out ∧
      (valueAt out.dbpor 0).toNat = u64 (z + stats.count 1) ∧
      (∀ k, k ≠ 0 → (valueAt out.dbpor k).toNat = stats.count (k.toNat + 1)) ∧
      (∀ k, k ∈ out.dbpor ↔ k = 0 ∨ k.toNat + 1 ∈ stats) ∧
      (∑ k ∈ out.dbpor.keys, (k.toNat + 1) * (valueAt out.dbpor k).toNat ≡ z + stats.sum [MOD 2 ^ 64]) ∧
      (z + stats.count 1 < 2 ^ 64 → (valueAt out.dbpor 0).toNat = z + stats.count 1 ∧
        ∑ k ∈ out.dbpor.keys, (k.toNat + 1) * (valueAt out.dbpor k).toNat = z + stats.sum) ∧
      out.headerdist = (stats.zipIdx.filter fun p => 1 ≤ p.1).map fun p => (u64 (p.2 + info.zeroCopyBlocks), p.1) := by
  obtain ⟨out, hout, hdb, hlines⟩ := @genOutputdist_eq info stats z contentMap hlen hz
  have hlen' : stats.length < 2 ^ 64 := hlen ▸ hdup
  have hzero : (valueAt out.dbpor 0).toNat = u64 (z + stats.count 1) := by
    rw [hdb, valueAt_outputDb hlt, if_pos rfl, UInt64.toNat_ofNat']
    rfl
  have hsum : ∑ k ∈ out.dbpor.keys, (k.toNat + 1) * (valueAt out.dbpor k).toNat =
      u64 (z + stats.count 1) + (stats.filter fun n => 1 < n).sum := by
    rw [hdb]
    exact sum_outputDb hlen' hlt z
  have htotal : z + stats.sum = z + stats.count 1 + (stats.filter fun n => 1 < n).sum := by
    rw [sum_eq_filter_add_count stats]
    omega
  refine ⟨out, hout, hzero, fun k hk => ?_, fun k => ?_, ?_, fun hfit => ?_, hlines⟩
  · have hcount : stats.count (k.toNat + 1) < 2 ^ 64 := lt_of_le_of_lt List.count_le_length hlen'
    rw [hdb, valueAt_outputDb hlt, if_neg hk, toNat_ofNat hcount]
  · rw [hdb]
    exact mem_outputDb hlt z k
  · rw [hsum, htotal]
    exact (Nat.mod_modEq _ _).add_right _
  · have hu : u64 (z + stats.count 1) = z + stats.count 1 := Nat.mod_eq_of_lt hfit
    rw [hsum, hzero, hu]
    exact ⟨rfl, htotal.symm⟩

/-- Three counters, one of them zero. -/
theorem threeCounters_histogram : ∃ out, genOutputdist ⟨8, 4, 3, 4⟩ ⟨[1, 0, 3, 5], []⟩ ∅ = .ok out ∧
    (valueAt out.dbpor 0).toNat = 6 ∧ (valueAt out.dbpor 2).toNat = 1 ∧ out.headerdist = [(4, 1), (6, 3)] := by
  obtain ⟨out, hout, hzero, hval, -, -, -, hlines⟩ := @outputdist_histogram ⟨8, 4, 3, 4⟩ [1, 0, 3] 5 [] rfl
    (by decide) (by decide) (by decide)
  refine ⟨out, hout, hzero, hval 2 (by decide), hlines.trans (by decide)⟩

/-- A `zerodups` that one more block takes past the end of a `uint64_t`. -/
theorem fullZerodups_wraps : ∃ out, genOutputdist ⟨8, 4, 1, 2⟩ ⟨[1, 2 ^ 64 - 1], []⟩ ∅ = .ok out ∧
    (valueAt out.dbpor 0).toNat ≠ 2 ^ 64 - 1 + [1].count 1 ∧
    ∑ k ∈ out.dbpor.keys, (k.toNat + 1) * (valueAt out.dbpor k).toNat ≠ 2 ^ 64 - 1 + [1].sum := by
  obtain ⟨out, hout, hdb, -⟩ := @genOutputdist_eq ⟨8, 4, 1, 2⟩ [1] (2 ^ 64 - 1) [] rfl (by decide)
  refine ⟨out, hout, ?_, ?_⟩
  · rw [hdb, valueAt_outputDb (by decide)]
    decide
  · rw [hdb, sum_outputDb (by decide) (by decide)]
    decide

end Histogram

end Dedisbench
