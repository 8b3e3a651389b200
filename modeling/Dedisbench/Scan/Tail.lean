import Dedisbench.Scan.Ranges
import Mathlib.Algebra.BigOperators.Intervals
import Mathlib.Algebra.Order.BigOperators.Group.Finset
import Mathlib.Order.Interval.Finset.Nat

/-!
# How far the fold goes

The loop of `print_elements_print` that folds the last slots tests the slot it folds, and not whether there is one
below.  It stays in the array exactly if, from some slot on, there are more than 300 blocks (`tail_inside_iff`): a
distribution of at most 300 blocks is folded down to slot zero and then below it.  Without a stream for the cumulative
file there is no distribution that comes through (`never_agrees`).
-/

namespace Dedisbench

open Tally ExceptRun

/-- The slots that the fold reads and writes, from slot `i` down. -/
def foldSlots : ℕ → List UInt64 → List ℤ
  | 0, dups => if dups[0]?.getD 0 ≤ 300 then [0, -1, 0] else [0]
  | i + 1, dups =>
    let d := dups[i + 1]?.getD 0
    if d ≤ 300 then
      (i + 1 : ℤ) :: i :: (i + 1) :: foldSlots i ((dups.set i (dups[i]?.getD 0 + d)).set (i + 1) 0)
    else [(i + 1 : ℤ)]

/-- **The fold stays in the array**, between slot zero and the last one that is used, and stops. -/
structure TailInside (s : CumulState) : Prop where
  slots : ∀ j ∈ foldSlots s.max s.dups, 0 ≤ j ∧ j ≤ s.max
  stops : ∃ dups, foldTail s.max s.dups = .ok dups

/-- The blocks of a distribution whose keys have slot `i` or a later one. -/
def blocksFrom (db : PrintDb) (i : ℕ) : ℕ := ∑ k ∈ db.keys.filter fun k => i ≤ arrPos k, (valueAt db k).toNat

/-! ### The fold -/

section Fold

variable {dups : List UInt64} {i j : ℕ}

/-- The blocks in the slots from `j` to `i`. -/
def slotsSum (dups : List UInt64) (j i : ℕ) : ℕ := ∑ k ∈ Finset.Icc j i, (dups[k]?.getD 0).toNat

theorem slotsSum_self (dups : List UInt64) (i : ℕ) : slotsSum dups i i = (dups[i]?.getD 0).toNat := by
  rw [slotsSum, Finset.Icc_self, Finset.sum_singleton]

theorem slotsSum_succ (h : j ≤ i + 1) : slotsSum dups j (i + 1) = slotsSum dups j i + (dups[i + 1]?.getD 0).toNat :=
  Finset.sum_Icc_succ_top h _

/-- The slots after a round of the fold. -/
theorem slotsSum_round (hi : i + 1 < dups.length) (h : j ≤ i) :
    slotsSum ((dups.set i (dups[i]?.getD 0 + dups[i + 1]?.getD 0)).set (i + 1) 0) j i % 2 ^ 64 =
      slotsSum dups j (i + 1) % 2 ^ 64 := by
  have hother : ∀ k < i, ((dups.set i (dups[i]?.getD 0 + dups[i + 1]?.getD 0)).set (i + 1) 0)[k]? = dups[k]? := by
    intro k hk
    rw [List.getElem?_set_ne (by omega), List.getElem?_set_ne (by omega)]
  have hat : ((dups.set i (dups[i]?.getD 0 + dups[i + 1]?.getD 0)).set (i + 1) 0)[i]? =
      some (dups[i]?.getD 0 + dups[i + 1]?.getD 0) := by
    rw [List.getElem?_set_ne (by omega), List.getElem?_set_self (by omega)]
  rw [slotsSum_succ (by omega)]
  cases i with
  | zero =>
    obtain rfl : j = 0 := Nat.le_zero.mp h
    rw [slotsSum_self, slotsSum_self, hat, Option.getD_some, UInt64.toNat_add, Nat.mod_mod]
  | succ i =>
    rcases Nat.lt_or_ge i j with hj | hj
    · obtain rfl : j = i + 1 := by omega
      rw [slotsSum_self, slotsSum_self, hat, Option.getD_some, UInt64.toNat_add, Nat.mod_mod]
    · have hsame : slotsSum ((dups.set (i + 1) (dups[i + 1]?.getD 0 + dups[i + 1 + 1]?.getD 0)).set (i + 1 + 1) 0) j i =
          slotsSum dups j i := by
        refine Finset.sum_congr rfl fun k hk => ?_
        rw [hother k (Nat.lt_succ_of_le (Finset.mem_Icc.mp hk).2)]
      rw [slotsSum_succ (by omega), slotsSum_succ (by omega), hsame, hat, Option.getD_some, UInt64.toNat_add]
      omega

/-- The fold only goes down. -/
theorem foldSlots_le (i : ℕ) (dups : List UInt64) : ∀ j ∈ foldSlots i dups, j ≤ i := by
  induction i generalizing dups with
  | zero =>
    rw [foldSlots]
    split <;> decide
  | succ i ih =>
    rw [foldSlots]
    split
    · simp only [List.forall_mem_cons]
      refine ⟨by omega, by omega, by omega, fun j hj => ?_⟩
      have hle := ih _ j hj
      omega
    · simp only [List.mem_singleton, forall_eq]
      omega

/-- **Where the fold stops**: at a slot from which on there are more than 300 blocks, as the counters have it.  Then it
has not left the array, and otherwise it has. -/
theorem foldTail_iff (hi : i < dups.length) :
    ((∃ dups', foldTail i dups = .ok dups') ↔ ∃ j ≤ i, 300 < slotsSum dups j i % 2 ^ 64) ∧
    ((∀ j ∈ foldSlots i dups, 0 ≤ j) ↔ ∃ j ≤ i, 300 < slotsSum dups j i % 2 ^ 64) := by
  have h300 : ∀ d : UInt64, d ≤ 300 ↔ d.toNat ≤ 300 := fun d => UInt64.le_iff_toNat_le
  induction i generalizing dups with
  | zero =>
    have hsum : (∃ j ≤ 0, 300 < slotsSum dups j 0 % 2 ^ 64) ↔ ¬ dups[0]?.getD 0 ≤ 300 := by
      simp only [Nat.le_zero, exists_eq_left, slotsSum_self, h300, not_le, Nat.mod_eq_of_lt (UInt64.toNat_lt _)]
    rw [hsum, foldTail, List.getElem?_eq_getElem hi, foldSlots, List.getElem?_eq_getElem hi]
    dsimp only [Option.getD_some]
    split
    next hle => simp [hle]
    next hgt => simp [hgt]
  | succ i ih =>
    have hget : dups[i + 1]? = some dups[i + 1] := List.getElem?_eq_getElem hi
    have hget' : dups[i]? = some dups[i] := List.getElem?_eq_getElem (by omega)
    by_cases hle : dups[i + 1] ≤ 300
    · -- the slot is folded into the one below
      have hlen : i < ((dups.set i (dups[i]?.getD 0 + dups[i + 1]?.getD 0)).set (i + 1) 0).length := by
        rw [List.length_set, List.length_set]
        omega
      have hih := ih hlen
      have hsum :
          (∃ j ≤ i, 300 < slotsSum ((dups.set i (dups[i]?.getD 0 + dups[i + 1]?.getD 0)).set (i + 1) 0) j i % 2 ^ 64) ↔
          ∃ j ≤ i + 1, 300 < slotsSum dups j (i + 1) % 2 ^ 64 := by
        constructor
        · rintro ⟨j, hj, hgt⟩
          rw [slotsSum_round hi hj] at hgt
          exact ⟨j, by omega, hgt⟩
        · rintro ⟨j, hj, hgt⟩
          rcases Nat.lt_or_eq_of_le hj with hj | rfl
          · refine ⟨j, by omega, ?_⟩
            rwa [slotsSum_round hi (by omega)]
          · rw [slotsSum_self, hget, Option.getD_some, Nat.mod_eq_of_lt (UInt64.toNat_lt _)] at hgt
            exact absurd ((h300 _).mp hle) (not_le.mpr hgt)
      rw [hsum, hget, hget', Option.getD_some, Option.getD_some] at hih
      rw [← hih.1]
      refine ⟨?_, ?_⟩
      · simp only [foldTail, hget, hget', if_pos hle]
      · rw [hih.1, ← hih.2]
        simp only [foldSlots, hget, hget', Option.getD_some, if_pos hle, List.forall_mem_cons]
        exact ⟨fun hall => hall.2.2.2, fun hrest => ⟨by omega, by omega, by omega, hrest⟩⟩
    · have hsum : ∃ j ≤ i + 1, 300 < slotsSum dups j (i + 1) % 2 ^ 64 := by
        refine ⟨i + 1, le_rfl, ?_⟩
        rw [slotsSum_self, hget, Option.getD_some, Nat.mod_eq_of_lt (UInt64.toNat_lt _)]
        exact not_le.mp (mt (h300 _).mpr hle)
      refine ⟨iff_of_true ⟨dups, foldTail_of_gt hget hle⟩ hsum, iff_of_true ?_ hsum⟩
      simp only [foldSlots, hget, Option.getD_some, if_neg hle, List.mem_singleton, forall_eq]
      omega

end Fold

/-! ### The scan -/

section Scan

variable {db : PrintDb} {recs : List (UInt64 × UInt64)} {s : CumulState}

/-- The blocks that the records bring to a slot. -/
def slotTotal (recs : List (UInt64 × UInt64)) (p : ℕ) : ℕ :=
  total ((recs.filter fun r => arrPos r.1 = p).map Prod.snd)

theorem slotTotal_concat (recs : List (UInt64 × UInt64)) (data : UInt64 × UInt64) (p : ℕ) :
    slotTotal (recs ++ [data]) p = slotTotal recs p + if arrPos data.1 = p then data.2.toNat else 0 := by
  rw [slotTotal, List.filter_append, List.map_append, total_append, slotTotal]
  by_cases h : arrPos data.1 = p
  · simp [h, total]
  · simp [h, total]

/-- What the scan leaves in the slots, whether or not the counters have wrapped. -/
structure SlotsHold (recs : List (UInt64 × UInt64)) (s : CumulState) : Prop where
  length : s.dups.length = dupsLen
  max_lt : s.max < dupsLen
  le_max : ∀ r ∈ recs, arrPos r.1 ≤ s.max
  slot : ∀ p, (s.dups[p]?.getD 0).toNat = slotTotal recs p % 2 ^ 64

theorem SlotsHold.init (fpcumul : Option (List CumulLine)) : SlotsHold [] ⟨List.replicate dupsLen 0, 0, fpcumul⟩ where
  length := List.length_replicate
  max_lt := show 0 < dupsLen by decide
  le_max r hr := absurd hr List.not_mem_nil
  slot p := by
    rw [List.getElem?_replicate]
    split <;> rfl

theorem SlotsHold.next (h : SlotsHold recs s) {data : UInt64 × UInt64} (hnew : data.1 ∉ recs.map Prod.fst) :
    SlotsHold (recs ++ [data]) (cumulNext s data) := by
  have hlen : (cumulNext s data).dups.length = dupsLen := (length_cumulNext s data).trans h.length
  by_cases hkey : data.1 = 0
  · have hpos : arrPos data.1 = 0 := by rw [hkey, arrPos_zero]
    -- no record before has had slot zero
    have hnone : slotTotal recs 0 = 0 := by
      have hfilter : recs.filter (fun r => arrPos r.1 = 0) = [] := by
        refine List.filter_eq_nil_iff.mpr fun r hr => ?_
        have hne : r.1 ≠ 0 := fun hzero => hnew (List.mem_map.mpr ⟨r, hr, hzero.trans hkey.symm⟩)
        have hbound := arrPos_bounds hne
        simp only [decide_eq_true_eq]
        omega
      rw [slotTotal, hfilter]
      rfl
    rw [cumulNext, if_pos hkey] at hlen ⊢
    refine ⟨hlen, h.max_lt, fun r hr => ?_, fun p => ?_⟩
    · rcases List.mem_append.mp hr with hr | hr
      · exact h.le_max r hr
      · rw [List.mem_singleton.mp hr, hpos]
        exact Nat.zero_le _
    · rw [slotTotal_concat, hpos]
      rcases Nat.eq_zero_or_pos p with rfl | hp
      · have hlt : 0 < s.dups.length := by
          rw [h.length]
          decide
        rw [List.getElem?_modify_eq, List.getElem?_eq_getElem hlt, hnone, if_pos rfl, Nat.zero_add,
          Nat.mod_eq_of_lt (UInt64.toNat_lt _)]
        rfl
      · rw [List.getElem?_modify_ne _ _ hp.ne, if_neg hp.ne, Nat.add_zero]
        exact h.slot p
  · have hbound := arrPos_bounds hkey
    rw [cumulNext, if_neg hkey] at hlen ⊢
    refine ⟨hlen, ?_, fun r hr => ?_, fun p => ?_⟩
    · have hmax := h.max_lt
      rw [dupsLen] at hmax ⊢
      exact Nat.max_lt.mpr ⟨hmax, by omega⟩
    · rcases List.mem_append.mp hr with hr | hr
      · exact (h.le_max r hr).trans (Nat.le_max_left _ _)
      · rw [List.mem_singleton.mp hr]
        exact Nat.le_max_right _ _
    · rw [slotTotal_concat]
      have hslot := h.slot p
      by_cases hp : arrPos data.1 = p
      · have hlt : p < s.dups.length := by
          rw [h.length, dupsLen]
          omega
        rw [List.getElem?_eq_getElem hlt, Option.getD_some] at hslot
        rw [hp, List.getElem?_modify_eq, List.getElem?_eq_getElem hlt, if_pos rfl]
        show (s.dups[p] + data.2).toNat = _
        rw [UInt64.toNat_add, hslot, Nat.mod_add_mod]
      · rw [List.getElem?_modify_ne _ _ hp, if_neg hp, Nat.add_zero]
        exact hslot

/-- **What a scan of different keys leaves.** -/
theorem slotsHold (h : (recs.map Prod.fst).Nodup) (fpcumul : Option (List CumulLine)) :
    SlotsHold recs (recs.foldl cumulNext ⟨List.replicate dupsLen 0, 0, fpcumul⟩) := by
  induction recs using List.reverseRecOn with
  | nil => exact .init fpcumul
  | append_singleton recs data ih =>
    rw [List.map_append, List.map_singleton, List.nodup_append] at h
    rw [List.foldl_concat]
    refine (ih h.1).next fun hmem => ?_
    exact h.2.2 _ hmem _ (List.mem_singleton_self _) rfl

/-- The slots from `j` on hold the blocks of the keys with these slots. -/
theorem SlotsHold.slotsSum_eq (hs : SlotsHold recs s) (h : Visits db recs) (j : ℕ) :
    slotsSum s.dups j s.max % 2 ^ 64 = blocksFrom db j % 2 ^ 64 := by
  have hsum : ∀ l : List (UInt64 × UInt64), (∀ r ∈ l, arrPos r.1 ≤ s.max) →
      ∑ p ∈ Finset.Icc j s.max, slotTotal l p = ((l.filter fun r => j ≤ arrPos r.1).map fun r => r.2.toNat).sum := by
    intro l
    induction l using List.reverseRecOn with
    | nil => exact fun _ => Finset.sum_const_zero
    | append_singleton l data ih =>
      intro hle
      have hdata := hle data (List.mem_append_right _ (List.mem_singleton_self _))
      simp only [slotTotal_concat]
      rw [Finset.sum_add_distrib, ih fun r hr => hle r (List.mem_append_left _ hr), Finset.sum_ite_eq, List.filter_append,
        List.map_append, List.sum_append]
      by_cases hj : j ≤ arrPos data.1
      · rw [if_pos (Finset.mem_Icc.mpr ⟨hj, hdata⟩)]
        simp [hj]
      · rw [if_neg fun hmem => hj (Finset.mem_Icc.mp hmem).1]
        simp [hj]
  rw [slotsSum, Finset.sum_congr rfl fun p _ => hs.slot p, ← Finset.sum_nat_mod, hsum recs hs.le_max, blocksFrom]
  rw [h.sum_map (fun k => j ≤ arrPos k) UInt64.toNat]

theorem blocksFrom_le (db : PrintDb) (j : ℕ) : blocksFrom db j ≤ blocksOf db :=
  Finset.sum_le_sum_of_subset (Finset.filter_subset _ _)

theorem blocksFrom_zero (db : PrintDb) : blocksFrom db 0 = blocksOf db := by
  simp [blocksFrom, blocksOf]

/-- **When the fold stays in the array**: from some slot on there are more than 300 blocks, modulo `2 ^ 64` as the
counters have it.  With less than `2 ^ 64` blocks this means that there are more than 300. -/
theorem tail_inside_iff (h : Visits db recs) :
    (∃ s, recs.foldlM cumulStep ⟨List.replicate dupsLen 0, 0, some []⟩ = .ok s ∧
      (TailInside s ↔ ∃ j, 300 < blocksFrom db j % 2 ^ 64)) ∧
    (blocksOf db < 2 ^ 64 → ((∃ j, 300 < blocksFrom db j % 2 ^ 64) ↔ 300 < blocksOf db)) := by
  constructor
  · have hs := slotsHold h.nodup_keys (some [])
    refine ⟨_, foldlM_cumulStep recs List.length_replicate rfl, ?_⟩
    set s := recs.foldl cumulNext ⟨List.replicate dupsLen 0, 0, some []⟩
    obtain ⟨hstops, hslots⟩ := foldTail_iff (i := s.max) (hs.max_lt.trans_eq hs.length.symm)
    have hsum : (∃ j ≤ s.max, 300 < slotsSum s.dups j s.max % 2 ^ 64) ↔ ∃ j, 300 < blocksFrom db j % 2 ^ 64 := by
      simp only [hs.slotsSum_eq h]
      refine ⟨fun ⟨j, _, hgt⟩ => ⟨j, hgt⟩, fun ⟨j, hgt⟩ => ⟨j, ?_, hgt⟩⟩
      -- behind the last slot there are no blocks
      by_contra hlt
      rw [← hs.slotsSum_eq h, slotsSum, Finset.Icc_eq_empty hlt, Finset.sum_empty] at hgt
      exact absurd hgt (by decide)
    rw [← hsum]
    exact ⟨fun hin => hstops.mp hin.stops, fun hgt =>
      ⟨fun j hj => ⟨hslots.mpr hgt j hj, foldSlots_le _ _ j hj⟩, hstops.mpr hgt⟩⟩
  · intro hlt
    constructor
    · rintro ⟨j, hgt⟩
      have hle := blocksFrom_le db j
      rw [Nat.mod_eq_of_lt (hle.trans_lt hlt)] at hgt
      exact hgt.trans_le hle
    · intro hgt
      refine ⟨0, ?_⟩
      rwa [blocksFrom_zero, Nat.mod_eq_of_lt hlt]

/-! ### Without a stream -/

/-- The scan without a stream for the cumulative file ends at key zero. -/
theorem foldlM_cumulStep_none (hlen : s.dups.length = dupsLen) (hout : s.fpcumul = none) :
    recs.foldlM cumulStep s = .error .undefined ∨
      recs.foldlM cumulStep s = .ok (recs.foldl cumulNext s) ∧ ∀ r ∈ recs, r.1 ≠ 0 := by
  induction recs generalizing s with
  | nil => exact .inr ⟨rfl, fun r hr => absurd hr List.not_mem_nil⟩
  | cons data recs ih =>
    by_cases hzero : data.1 = 0
    · left
      rw [List.foldlM_cons, cumulStep, if_pos hzero, hout]
      rfl
    · rw [List.foldlM_cons, cumulStep_of_ne hlen hzero, bind_ok, List.foldl_cons, List.forall_mem_cons]
      have hout' : (cumulNext s data).fpcumul = none := by
        rw [cumulNext, if_neg hzero, hout]
      rcases ih ((length_cumulNext s data).trans hlen) hout' with herror | ⟨hok, hne⟩
      · exact .inl herror
      · exact .inr ⟨hok, hzero, hne⟩

theorem foldl_cumulNext_none (hout : s.fpcumul = none) (hne : ∀ r ∈ recs, r.1 ≠ 0) :
    (recs.foldl cumulNext s).fpcumul = none ∧ (recs.foldl cumulNext s).dups[0]? = s.dups[0]? := by
  induction recs generalizing s with
  | nil => exact ⟨hout, rfl⟩
  | cons data recs ih =>
    obtain ⟨hzero, hne⟩ := List.forall_mem_cons.mp hne
    have hbound := arrPos_bounds hzero
    have hnext := ih (s := cumulNext s data) (by rw [cumulNext, if_neg hzero, hout]) hne
    refine ⟨hnext.1, hnext.2.trans ?_⟩
    rw [cumulNext, if_neg hzero, List.getElem?_modify_ne _ _ (by omega)]

/-- Over an empty slot zero, the fold stops at a slot behind it or not at all. -/
theorem exists_of_foldTail {i : ℕ} {dups dups' : List UInt64} {d : UInt64} (hd : dups[0]? = some d)
    (hpos : 0 < i → d = 0) (hzero : i = 0 → d ≤ 300) (h : foldTail i dups = .ok dups') :
    ∃ j, ∃ x, dups'[j + 1]? = some x ∧ x ≠ 0 := by
  induction i generalizing dups d with
  | zero =>
    rw [foldTail, hd] at h
    dsimp only at h
    rw [if_pos (hzero rfl)] at h
    cases h
  | succ i ih =>
    obtain rfl := hpos (Nat.succ_pos i)
    rw [foldTail] at h
    split at h
    next x below hx hbelow =>
      split at h
      next hle =>
        have hlen := (List.getElem?_eq_some_iff.mp hx).1
        cases i with
        | zero =>
          -- slot zero has been empty
          rw [hd, Option.some.injEq] at hbelow
          subst hbelow
          refine ih (d := 0 + x) ?_ (fun hlt => absurd hlt (lt_irrefl 0)) (fun _ => by rwa [UInt64.zero_add]) h
          rw [List.getElem?_set_ne (by omega), List.getElem?_set_self (by omega)]
        | succ i =>
          refine ih (d := 0) ?_ (fun _ => rfl) (fun hzero => absurd hzero (Nat.succ_ne_zero i)) h
          rw [List.getElem?_set_ne (by omega), List.getElem?_set_ne (by omega), hd]
      next hgt =>
        cases h
        refine ⟨i, x, hx, fun hzero => hgt ?_⟩
        rw [hzero]
        decide
    next => cases h

theorem foldTail_error {i : ℕ} {dups : List UInt64} {e : Fault} (h : foldTail i dups = .error e) : e = .undefined := by
  induction i generalizing dups with
  | zero =>
    rw [foldTail] at h
    split at h
    · split at h <;> cases h
      rfl
    · cases h
      rfl
  | succ i ih =>
    rw [foldTail] at h
    split at h
    · split at h
      · exact ih h
      · cases h
    · cases h
      rfl

/-- **Without a stream nothing comes through.** -/
theorem printElementsPrint_none (recs : List (UInt64 × UInt64)) :
    printElementsPrint recs none = .error .undefined := by
  have hcumul : printCumulative recs none = .error .undefined := by
    rw [printCumulative]
    rcases @foldlM_cumulStep_none recs ⟨List.replicate dupsLen 0, 0, none⟩ List.length_replicate rfl with
      herror | ⟨hok, hne⟩
    · rw [herror, bind_error]
    · rw [hok, bind_ok]
      obtain ⟨hout, hslot⟩ := @foldl_cumulNext_none recs ⟨List.replicate dupsLen 0, 0, none⟩ rfl hne
      set s := recs.foldl cumulNext ⟨List.replicate dupsLen 0, 0, none⟩
      cases hfold : foldTail s.max s.dups with
      | error e =>
        rw [foldTail_error hfold]
        rfl
      | ok dups =>
        obtain ⟨j, x, hx, hne⟩ := exists_of_foldTail hslot (fun _ => rfl) (fun _ => by decide) hfold
        have hlines : rangeLines (dups.drop 1) 1 10 ≠ [] := by
          intro hnil
          have hall := slotLines_eq_nil.mp ((rangeLines_eq _ 0).symm.trans hnil)
          exact hne (hall x (List.mem_of_getElem? (by rw [List.getElem?_drop, Nat.add_comm]; exact hx)))
        obtain ⟨line, lines, hcons⟩ := List.exists_cons_of_ne_nil hlines
        rw [bind_ok, hcons, hout]
        rfl
  rw [printElementsPrint, hcumul, bind_error]

/-- `DEDISgenutils -o` prints what `DEDISgen` prints: without a stream for the cumulative file, the call comes through,
with the same distribution as the call that has one. -/
def Agrees (db : PrintDb) : Prop :=
  ∀ recs, Visits db recs → ∃ dist out, printElementsPrint recs none = .ok (dist, none) ∧
    printElementsPrint recs (some []) = .ok (dist, some out)

/-- **It never does**, for no distribution and no order of the cursor. -/
theorem never_agrees (db : PrintDb) : ¬ Agrees db ∧
    ∀ recs, Visits db recs → printElementsPrint recs none = .error .undefined := by
  refine ⟨fun hagrees => ?_, fun recs _ => printElementsPrint_none recs⟩
  obtain ⟨recs, hrecs⟩ := exists_visits db
  obtain ⟨dist, out, hnone, -⟩ := hagrees recs hrecs
  rw [printElementsPrint_none] at hnone
  cases hnone

end Scan

/-- More than 300 blocks with a duplicate. -/
theorem largeTail_inside : ∃ recs s, Visits ((∅ : PrintDb).insert 0 5 |>.insert 1 301) recs ∧
    recs.foldlM cumulStep ⟨List.replicate dupsLen 0, 0, some []⟩ = .ok s ∧ TailInside s := by
  obtain ⟨recs, hrecs⟩ := exists_visits ((∅ : PrintDb).insert 0 5 |>.insert 1 301)
  obtain ⟨⟨s, hs, hiff⟩, htotal⟩ := tail_inside_iff hrecs
  exact ⟨recs, s, hrecs, hs, hiff.mpr ((htotal (by decide)).mpr (by decide))⟩

/-- Three hundred blocks in one slot: the fold goes to slot -1. -/
theorem smallTail_outside : Visits ((∅ : PrintDb).insert 1 300) [(1, 300)] ∧
    ∃ s, [((1 : UInt64), (300 : UInt64))].foldlM cumulStep ⟨List.replicate dupsLen 0, 0, some []⟩ = .ok s ∧
      foldSlots s.max s.dups = [1, 0, 1, 0, -1, 0] ∧ ¬ TailInside s := by
  have h : okWith ([((1 : UInt64), (300 : UInt64))].foldlM cumulStep ⟨List.replicate dupsLen 0, 0, some []⟩) fun s =>
      foldSlots s.max s.dups = [1, 0, 1, 0, -1, 0] := by
    decide +kernel
  obtain ⟨s, hs, h⟩ := exists_of_okWith h
  have hslots : foldSlots s.max s.dups = [1, 0, 1, 0, -1, 0] := of_decide_eq_true h
  refine ⟨visits_of_entries rfl, s, hs, hslots, fun hinside => ?_⟩
  have hin := hinside.slots (-1) (by rw [hslots]; decide)
  exact absurd hin.1 (by decide)

/-- Five hundred blocks without duplicates: a line for the cumulative file, and no stream to write it to. -/
theorem onlyUnique_not_agrees : Visits ((∅ : PrintDb).insert 0 500) [(0, 500)] ∧
    (∃ dist, printElementsPrint [(0, 500)] (some []) = .ok (dist, some [.zero 500])) ∧
    printElementsPrint [(0, 500)] none = .error .undefined ∧ ¬ Agrees ((∅ : PrintDb).insert 0 500) := by
  have h : okWith (printElementsPrint [(0, 500)] (some [])) fun x => x.2 = some [.zero 500] := by decide +kernel
  obtain ⟨⟨dist, out⟩, hrun, h⟩ := exists_of_okWith h
  have hout : out = some [.zero 500] := of_decide_eq_true h
  have hvisits : Visits ((∅ : PrintDb).insert 0 500) [(0, 500)] := visits_of_entries rfl
  refine ⟨hvisits, ⟨dist, hout ▸ hrun⟩, printElementsPrint_none _, fun hagrees => ?_⟩
  obtain ⟨dist', out', hnone, -⟩ := hagrees _ hvisits
  rw [printElementsPrint_none] at hnone
  cases hnone

end Dedisbench
