import Dedisbench.Bench.Offsets
import Mathlib.Data.Int.CardIntervalMod

/-!
# How uniform the uniform access is

`genrand` keeps what it draws first as long as it is below the last multiple of `max` under `INT64_MAX`, and a 32-bit
number always is.  So the residues are hit equally often only if `max` divides `2 ^ 32` (`genrand_unbiased_iff`), and
`get_ioposition`, which asks for one block less than the region has, never picks the last one (`picks_iff`).
-/

namespace Dedisbench

open ExceptRun

variable {max r : ℕ} {conf : Conf} {idproc k : ℕ} {raws : List ℕ}

/-! ### The first draw of `genrand` -/

/-- The 32-bit numbers that `genrand` accepts at its first draw, with the result `r`. -/
def firstHits (max r : ℕ) : Finset ℕ :=
  (Finset.range (2 ^ 32)).filter fun raw => okWith (genrand max [raw]) fun x => x.1 = r

/-- The first draw hits every result, and all of them equally often. -/
structure Unbiased (max : ℕ) : Prop where
  equal : ∀ r < max, ∀ r' < max, (firstHits max r).card = (firstHits max r').card
  reachable : ∀ r < max, (firstHits max r).Nonempty

theorem mem_firstHits (hmax : 0 < max ∧ max ≤ 2 ^ 32) {raw : ℕ} :
    raw ∈ firstHits max r ↔ raw < 2 ^ 32 ∧ raw % max = r := by
  rw [firstHits, Finset.mem_filter, Finset.mem_range,
    genrand_first hmax.1 (hmax.2.trans (by decide)) raw []]
  refine and_congr_right fun hraw => ?_
  rw [u32_of_lt hraw]
  exact decide_eq_true_iff

/-- **How often a result is hit.** -/
theorem card_firstHits (hmax : 0 < max ∧ max ≤ 2 ^ 32) (hr : r < max) :
    (firstHits max r).card = 2 ^ 32 / max + if r < 2 ^ 32 % max then 1 else 0 := by
  have hset : firstHits max r = (Finset.range (2 ^ 32)).filter fun raw => raw ≡ r [MOD max] := by
    ext raw
    rw [mem_firstHits hmax, Finset.mem_filter, Finset.mem_range, Nat.ModEq, Nat.mod_eq_of_lt hr]
  rw [hset, ← Nat.count_eq_card_filter_range, Nat.count_modEq_card _ hmax.1, Nat.mod_eq_of_lt hr]

/-- **When `genrand` is unbiased**: if the range divides `2 ^ 32`.  Every result can be hit in any case. -/
theorem genrand_unbiased_iff (hmax : 1 ≤ max ∧ max ≤ 2 ^ 32) :
    (Unbiased max ↔ max ∣ 2 ^ 32) ∧ ∀ r < max, (firstHits max r).Nonempty := by
  have hreach : ∀ r < max, (firstHits max r).Nonempty := fun r hr =>
    ⟨r, (mem_firstHits hmax).mpr ⟨hr.trans_le hmax.2, Nat.mod_eq_of_lt hr⟩⟩
  refine ⟨⟨fun h => ?_, fun hdvd => ⟨fun r hr r' hr' => ?_, hreach⟩⟩, hreach⟩
  · -- the first residue is hit once more than the first one behind the remainder
    by_contra hdvd
    have hmod : 2 ^ 32 % max < max := Nat.mod_lt _ hmax.1
    have hpos : 0 < 2 ^ 32 % max := Nat.pos_of_ne_zero fun h0 => hdvd (Nat.dvd_of_mod_eq_zero h0)
    have hcard := h.equal 0 hmax.1 (2 ^ 32 % max) hmod
    rw [card_firstHits hmax hmax.1, card_firstHits hmax hmod, if_pos hpos, if_neg (lt_irrefl _)] at hcard
    omega
  · have hzero : 2 ^ 32 % max = 0 := Nat.mod_eq_zero_of_dvd hdvd
    rw [card_firstHits hmax hr, card_firstHits hmax hr', hzero, if_neg (Nat.not_lt_zero r),
      if_neg (Nat.not_lt_zero r')]

theorem unbiased_1024 : Unbiased 1024 := (genrand_unbiased_iff (by decide)).1.mpr (by decide)

/-- With three results the first one is hit once more than the others. -/
theorem not_unbiased_3 : ¬ Unbiased 3 := by
  intro h
  have hcard := h.equal 0 (by decide) 1 (by decide)
  rw [card_firstHits (by decide) (by decide), card_firstHits (by decide) (by decide)] at hcard
  norm_num at hcard

/-! ### The blocks that are picked -/

/-- Block `k` of the region of a process is picked for some draws. -/
def Picks (conf : Conf) (idproc k : ℕ) : Prop :=
  ∃ totOps cNurand raws rest, getIoposition conf totOps cNurand idproc raws =
    .ok ((conf.regionStart idproc + k) * conf.blockSize, rest)

theorem genrand_ok {v : ℕ} {rest : List ℕ} (h : genrand max raws = .ok (v, rest)) :
    ∃ raw, v = u32 raw % max ∧ 0 < max ∧ max ≤ int64Max := by
  have hmax := genrand_le h
  have hlt := genrand_lt h
  cases raws with
  | nil =>
    unfold genrand at h
    split at h <;> cases h
  | cons raw raws =>
    rw [genrand_first (by omega) hmax, Except.ok.injEq, Prod.mk.injEq] at h
    exact ⟨raw, h.1.symm, by omega, hmax⟩

/-- A uniform access, with the number of the last block as the range. -/
theorem getIoposition_uniform (hacc : conf.accesstype = .uniform) (hid : idproc < conf.nprocs) (h1 : 1 ≤ conf.region)
    (totOps cNurand : ℕ) (raws : List ℕ) : getIoposition conf totOps cNurand idproc raws = (do
      let (res, raws) ← genrand (conf.region - 1) raws
      if conf.rawdevice then
        .ok (u64 (u64 (conf.region * conf.blockSize * idproc) + u64 (res * conf.blockSize)), raws)
      else .ok (u64 (res * conf.blockSize), raws)) := by
  have hpred : u64 (conf.region + 2 ^ 64 - 1) = conf.region - 1 :=
    u64_pred h1 (conf.region_le.trans_lt conf.totblocks_lt)
  have hpick : conf.positionIn conf.region totOps cNurand raws =
      getIopositionUniform conf.region conf.blockSize raws := by
    rw [Conf.positionIn, hacc]
  rw [getIoposition, Conf.regionBlocks_eq (by omega), bind_ok, hpick, getIopositionUniform, hpred]
  cases genrand (conf.region - 1) raws with
  | error e => rfl
  | ok x => rfl

/-- The last block of the region is never picked, nor one beyond the 32 bits of the first draw. -/
theorem lt_of_picks (hacc : conf.accesstype = .uniform) (hid : idproc < conf.nprocs) (h1 : 1 ≤ conf.region)
    (h : Picks conf idproc k) : k + 1 < conf.region ∧ k < 2 ^ 32 ∧ conf.region - 1 ≤ int64Max := by
  obtain ⟨totOps, cNurand, raws, rest, h⟩ := h
  rw [getIoposition_uniform hacc hid h1, bind_eq_ok] at h
  obtain ⟨⟨v, raws'⟩, hv, h⟩ := h
  obtain ⟨raw, hraw, hpos, hmax⟩ := genrand_ok hv
  have hvlt := genrand_lt hv
  have hvle : v < 2 ^ 32 := hraw ▸ (Nat.mod_le _ _).trans_lt (u32_lt raw)
  have hvr : v < conf.region := by omega
  have hoff : v * conf.blockSize < 2 ^ 64 := conf.offset_lt (hvr.le.trans conf.region_le)
  simp only [u64_of_lt hoff] at h
  rw [Conf.regionStart_add hid hvr, Except.ok.injEq, Prod.mk.injEq] at h
  have hsame : v = k := Nat.add_left_cancel (Nat.eq_of_mul_eq_mul_right conf.blockSize_pos h.1)
  omega

/-- **Which blocks a uniform access can pick**: all but the last one of the region, as far as a 32-bit number goes. -/
theorem picks_iff (hacc : conf.accesstype = .uniform) (hid : idproc < conf.nprocs) (h2 : 2 ≤ conf.region)
    (hk : k < conf.region) :
    Picks conf idproc k ↔ k + 1 < conf.region ∧ k < 2 ^ 32 ∧ conf.region - 1 ≤ int64Max := by
  refine ⟨lt_of_picks hacc hid (by omega), ?_⟩
  rintro ⟨hlast, h32, hmax⟩
  refine ⟨0, 0, [k], [], ?_⟩
  have hoff : k * conf.blockSize < 2 ^ 64 := conf.offset_lt (hk.le.trans conf.region_le)
  rw [getIoposition_uniform hacc hid (by omega), genrand_first (by omega) hmax, u32_of_lt h32,
    Nat.mod_eq_of_lt (by omega), bind_ok]
  simp only [u64_of_lt hoff]
  exact Conf.regionStart_add hid hk

/-- Four blocks that two processes access at random, in a file or on a device. -/
def fourBlocks (rawdevice : Bool) : Conf where
  blockSize := 4096
  filesize := 16384
  nprocs := 2
  mixedIO := false
  rawdevice := rawdevice
  accesstype := .uniform
  distout := false
  integrity := 0
  percentageAnalyze := 2
  compressionToAchieve := 25
  blockSize_pos := twoRegions.blockSize_pos
  filesize_lt := by decide

theorem picks_fourBlocks : Picks (fourBlocks false) 0 2 ∧ Picks (fourBlocks true) 1 0 :=
  ⟨(picks_iff rfl (by decide) (by decide) (by decide)).mpr (by decide),
    (picks_iff rfl (by decide) (by decide) (by decide)).mpr (by decide)⟩

/-- No draw leads to the last of the four blocks, or to the last one of a region of two. -/
theorem not_picks_fourBlocks : 2 ≤ (fourBlocks false).region ∧ 3 < (fourBlocks false).region ∧
    ¬ Picks (fourBlocks false) 0 3 ∧ ¬ Picks (fourBlocks true) 1 1 := by
  refine ⟨by decide, by decide, fun h => ?_, fun h => ?_⟩
  · exact absurd (lt_of_picks rfl (by decide) (by decide) h).1 (by decide)
  · exact absurd (lt_of_picks rfl (by decide) (by decide) h).1 (by decide)

end Dedisbench
